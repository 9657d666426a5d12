import Nstd.Document.Variant
import Nstd.Document.XmlEscape

/-!
# The XML parser

`Xml::Private`, function by function.  A read position is the rest of the text without the
terminator, so that the empty list is the position of the terminator.

* `Element`, `Variant` — the trees.
* `skipSpace`, `readToken`, `parseText` — the scanners.
* `parseElement` — with its two loops, `parseAttributes` and `parseContent`, as functions of their
  own.  The first argument bounds the number of calls inside each other.
* `parse` — `Xml::Private::parse`.
-/

namespace Nstd.Xml

mutual

/-- `Xml::Element` -/
structure Element where
  line : Int32
  column : ℕ
  type : List UInt8
  attributes : List (List UInt8 × List UInt8)
  content : List Variant

/-- `Xml::Variant` -/
inductive Variant
  | null
  | element (e : Element)
  | text (s : List UInt8)

end

/-- A default-constructed element -/
def Element.empty : Element := ⟨0, 0, [], [], []⟩

/-- `Position`; `line` is an `int` that wraps -/
structure Position where
  line : Int32
  pos : List UInt8
  lineStart : List UInt8

/-- The column of a position -/
def Position.column (pos : Position) : ℕ := pos.lineStart.length - pos.pos.length + 1

/-- `Token::Type` -/
inductive TokenType
  | startTagBegin
  | tagEnd
  | endTagBegin
  | emptyTagEnd
  | equalsSign
  | string
  | name
  deriving DecidableEq

/-- `Token` -/
structure Token where
  type : TokenType
  value : List UInt8
  pos : Position

/-- `Xml::Private` -/
structure Private where
  token : Token
  pos : Position
  errorLine : Int32
  errorColumn : ℕ
  errorString : List UInt8

/-- How parsing fails: with an error of the source, after which the parser is in a certain state, or
    by running out of calls -/
inductive Failure
  | syntaxError (p : Private)
  | outOfCalls

/-- `syntaxError(pos, error)`, and `return false` -/
def syntaxError {α : Type} (p : Private) (pos : Position) (error : List UInt8) : Except Failure α :=
  .error (.syntaxError
    { p with errorLine := pos.line, errorColumn := pos.column, errorString := error })

mutual

/-- `skipSpace`, outside of comments -/
def skipBlank (line : Int32) (lineStart : List UInt8) : List UInt8 → Position
  | [] => ⟨line, [], lineStart⟩
  | c :: s =>
    if c = ch '\r' then
      match s with
      | [] => skipBlank (line + 1) [] []
      | d :: s' =>
        if d = ch '\n' then skipBlank (line + 1) s' s'
        else skipBlank (line + 1) (d :: s') (d :: s')
    else if c = ch '\n' then skipBlank (line + 1) s s
    else if c = ch '<' then
      match s with
      | d :: e :: f :: s' =>
        if d = ch '!' ∧ e = ch '-' ∧ f = ch '-' then skipComment line lineStart s'
        else ⟨line, c :: d :: e :: f :: s', lineStart⟩
      | s' => ⟨line, c :: s', lineStart⟩
    else if isSpace c then skipBlank line lineStart s
    else ⟨line, c :: s, lineStart⟩

/-- The loop of `skipSpace` in a comment; `findOneOf` passes over the bytes of the last case. -/
def skipComment (line : Int32) (lineStart : List UInt8) : List UInt8 → Position
  | [] => ⟨line, [], lineStart⟩
  | c :: s =>
    if c = ch '\r' then
      match s with
      | [] => skipComment (line + 1) [] []
      | d :: s' =>
        if d = ch '\n' then skipComment (line + 1) s' s'
        else skipComment (line + 1) (d :: s') (d :: s')
    else if c = ch '\n' then skipComment (line + 1) s s
    else if c = ch '-' then
      match s with
      | [] => skipComment line lineStart []
      | [d] => skipComment line lineStart [d]
      | d :: e :: s' =>
        if d = ch '-' ∧ e = ch '>' then skipBlank line lineStart s'
        else skipComment line lineStart (d :: e :: s')
    else skipComment line lineStart s

end

/-- `skipSpace` -/
def skipSpace (pos : Position) : Position := skipBlank pos.line pos.lineStart pos.pos

/-- The bytes that the loop over a name passes over -/
def isNameByte (c : UInt8) : Bool := c ≠ ch '/' ∧ c ≠ ch '>' ∧ c ≠ ch '=' ∧ ¬ isSpace c

/-- The `switch` of `readToken`, after `skipSpace` -/
def switchToken (p : Private) : Except Failure Private :=
  let pos := p.pos
  match pos.pos with
  | [] => syntaxError p pos (bytes "Unexpected end of file")
  | c :: s =>
    if c = ch '<' then
      if s.head? = some (ch '/') then
        .ok { p with token.type := .endTagBegin, pos.pos := s.tail }
      else .ok { p with token.type := .startTagBegin, pos.pos := s }
    else if c = ch '>' then .ok { p with token.type := .tagEnd, pos.pos := s }
    else if c = ch '=' then .ok { p with token.type := .equalsSign, pos.pos := s }
    else if c = ch '"' ∨ c = ch '\x27' then
      match findOneOf id [c, ch '\r', ch '\n'] s with
      | none => syntaxError p pos (bytes "Unexpected end of file")
      | some e =>
        if e.head? ≠ some c then syntaxError p pos (bytes "New line in string")
        else
          let value := unescapeString (s.take (s.length - e.length))
          .ok { p with token.value := value, token.type := .string, pos.pos := e.tail }
    else if c = ch '/' ∧ s.head? = some (ch '>') then
      .ok { p with token.type := .emptyTagEnd, pos.pos := s.tail }
    else
      let value := (c :: s).takeWhile isNameByte
      if value = [] then syntaxError p pos (bytes "Expected name")
      else
        .ok { p with token.value := value, token.type := .name,
                     pos.pos := (c :: s).dropWhile isNameByte }

/-- `readToken` -/
def readToken (p : Private) : Except Failure Private :=
  let pos := skipSpace p.pos
  switchToken { p with pos := pos, token.pos := pos }

/-- The loop of `parseText`; `findOneOf` passes over the bytes of the last case. -/
def skipText (line : Int32) (lineStart : List UInt8) : List UInt8 → Position
  | [] => ⟨line, [], lineStart⟩
  | c :: s =>
    if c = ch '<' then ⟨line, c :: s, lineStart⟩
    else if c = ch '\r' then
      match s with
      | [] => skipText (line + 1) [] []
      | d :: s' =>
        if d = ch '\n' then skipText (line + 1) s' s'
        else skipText (line + 1) (d :: s') (d :: s')
    else if c = ch '\n' then skipText (line + 1) s s
    else skipText line lineStart s

/-- `parseText` -/
def parseText (p : Private) : Except Failure (Private × List UInt8) :=
  let start := p.pos.pos
  let p := { p with pos := skipText p.pos.line p.pos.lineStart p.pos.pos }
  if p.pos.pos = [] then syntaxError p p.pos (bytes "Unexpected end of file")
  else .ok (p, unescapeString (start.take (start.length - p.pos.pos.length)))

/-- The loop of `parseElement` over attributes: the attributes, and whether content follows.  A token
    that is neither a name nor the end of the tag is passed over. -/
def parseAttributes : ℕ → Private → List (List UInt8 × List UInt8) →
    Except Failure (Private × List (List UInt8 × List UInt8) × Bool)
  | 0, _, _ => .error .outOfCalls
  | n + 1, p, attributes => do
    let p ← readToken p
    if p.token.type = .emptyTagEnd then .ok (p, attributes, false)
    else if p.token.type = .tagEnd then .ok (p, attributes, true)
    else if p.token.type = .name then
      let attributeName := p.token.value
      let p ← readToken p
      if p.token.type ≠ .equalsSign then syntaxError p p.token.pos (bytes "Expected '='")
      else
        let p ← readToken p
        if p.token.type ≠ .string then syntaxError p p.token.pos (bytes "Expected string")
        else parseAttributes n p (HashMap.append attributeName p.token.value attributes)
    else parseAttributes n p attributes

/-- The end of `parseElement`, after `</` -/
def parseEndTag (p : Private) (type : List UInt8) : Except Failure Private := do
  let p ← readToken p
  if p.token.type ≠ .name then syntaxError p p.token.pos (bytes "Expected tag name")
  else if p.token.value ≠ type then
    syntaxError p p.token.pos (bytes "Expected end tag of '" ++ type ++ bytes "'")
  else
    let p ← readToken p
    if p.token.type ≠ .tagEnd then syntaxError p p.token.pos (bytes "Expected '>'")
    else .ok p

mutual

/-- `parseElement` -/
def parseElement : ℕ → Private → Element → Except Failure (Private × Element)
  | 0, _, _ => .error .outOfCalls
  | n + 1, p, element => do
    let line := p.token.pos.line
    let column := p.token.pos.column
    let p ← readToken p
    if p.token.type ≠ .name then syntaxError p p.token.pos (bytes "Expected tag name")
    else
      let type := p.token.value
      let (p, attributes, more) ← parseAttributes n p element.attributes
      if more then
        let (p, content) ← parseContent n p element.content
        let p ← parseEndTag p type
        .ok (p, ⟨line, column, type, attributes, content⟩)
      else .ok (p, ⟨line, column, type, attributes, element.content⟩)

/-- The loop of `parseElement` over the content, up to the token `</` -/
def parseContent : ℕ → Private → List Variant → Except Failure (Private × List Variant)
  | 0, _, _ => .error .outOfCalls
  | n + 1, p, content =>
    match readToken p with
    | .error .outOfCalls => .error .outOfCalls
    | .error (.syntaxError q) => do
      -- the position stays behind the white space that `readToken` skipped
      let (q, string) ← parseText q
      parseContent n q (content ++ [.text string])
    | .ok q =>
      if q.token.type = .endTagBegin then .ok (q, content)
      else if q.token.type = .startTagBegin then do
        let (q, element) ← parseElement n q .empty
        parseContent n q (content ++ [.element element])
      else do
        let (q, string) ← parseText { q with pos := p.pos }
        parseContent n q (content ++ [.text string])

end

/-- The inner loop of `parse` over a processing instruction that starts at `startPos` -/
def skipInstruction (startPos : Position) : ℕ → Private → Except Failure Private
  | 0, _ => .error .outOfCalls
  | n + 1, p =>
    match findOneOf id [ch '\r', ch '\n', ch '?'] p.pos.pos with
    | none => syntaxError p startPos (bytes "Unexpected end of file")
    | some e =>
      if e.head? = some (ch '?') ∧ e.tail.head? = some (ch '>') then
        .ok { p with pos.pos := e.tail.tail }
      else skipInstruction startPos n { p with pos := skipSpace { p.pos with pos := e.tail } }

/-- The loop of `parse` over processing instructions -/
def skipInstructions : ℕ → Private → Except Failure Private
  | 0, _ => .error .outOfCalls
  | n + 1, p =>
    if p.pos.pos.head? = some (ch '<') ∧ p.pos.pos.tail.head? = some (ch '?') then do
      let p ← skipInstruction p.pos n { p with pos.pos := p.pos.pos.tail.tail }
      skipInstructions n { p with pos := skipSpace p.pos }
    else .ok p

/-- The parser before the first token -/
def Private.initial (data : CString) : Private :=
  let pos : Position := ⟨1, data.bytes, data.bytes⟩
  { token := ⟨.name, [], pos⟩, pos := pos, errorLine := 0, errorColumn := 0, errorString := [] }

/-- `Xml::Private::parse`, with the parser as it is after it -/
def parse (n : ℕ) (data : CString) (element : Element) : Except Failure (Private × Element) := do
  let p := Private.initial data
  let p ← skipInstructions n { p with pos := skipSpace p.pos }
  let p ← readToken p
  if p.token.type ≠ .startTagBegin then syntaxError p p.token.pos (bytes "Expected '<'")
  else parseElement n p element

end Nstd.Xml
