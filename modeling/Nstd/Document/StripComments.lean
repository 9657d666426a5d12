import Nstd.Core.Bytes

/-!
# `Json::stripComments`

The scanner of `Json::stripComments` as the machine it is: three program points, each entered with
the rest of the source text, and the bytes written from there on.

* `strip` — the machine.  The text is a list of anything that has a byte, since the scanner only
  compares bytes and copies: over plain bytes it is the function itself, over bytes with their
  positions it says which positions are copied.
* `stripComments`, `copiedPositions` — these two.
* `blindComments` — the text read in a simpler way: as if a literal ended at its first backslash.
-/

namespace Nstd.Json

/-- The program points of `stripComments` -/
inductive StripPoint
  | checkStr
  | blockComment
  | literal

/-- From a program point on.  The first argument bounds the number of jumps. -/
def strip {α : Type} (byte : α → UInt8) : ℕ → StripPoint → List α → List α
  | 0, _, _ => []
  | _ + 1, .checkStr, [] => []
  | n + 1, .checkStr, c :: s =>
    if byte c = ch '/' ∧ s.head?.map byte = some (ch '/') then
      match findOneOf byte [ch '\r', ch '\n'] (c :: s) with
      | some e => strip byte n .checkStr e
      | none => []
    else if byte c = ch '/' ∧ s.head?.map byte = some (ch '*') then
      strip byte n .blockComment s.tail
    else if byte c ≠ ch '"' then c :: strip byte n .checkStr s
    else c :: strip byte n .literal s
  | n + 1, .blockComment, s =>
    match findOneOf byte [ch '\r', ch '\n', ch '*'] s with
    | none => []
    | some [] => []
    | some (c :: e) =>
      if byte c = ch '*' ∧ e.head?.map byte = some (ch '/') then strip byte n .checkStr e.tail
      else c :: strip byte n .blockComment e
  | n + 1, .literal, [] => strip byte n .checkStr []
  | n + 1, .literal, c :: s =>
    if byte c = ch '\\' ∧ s ≠ [] then c :: strip byte n .checkStr s
    else if byte c = ch '"' then c :: strip byte n .checkStr s
    else c :: strip byte n .literal s

/-- `Json::stripComments` -/
def stripComments (data : List UInt8) : List UInt8 := strip id (data.length + 1) .checkStr data

/-- The positions of `data` that `Json::stripComments` copies, in order -/
def copiedPositions (data : List UInt8) : List ℕ :=
  (strip Prod.fst (data.length + 1) .checkStr data.zipIdx).map Prod.snd

/-! ## Texts -/

/-- A piece of a text of tokens, white space and comments.  A byte that belongs to no literal and
    no comment is a piece of its own. -/
inductive Piece
  | byte (c : UInt8)
  | literal (body : List UInt8)
  | lineComment (body : List UInt8)
  | blockComment (body : List UInt8)

/-- The text of a piece -/
def Piece.text : Piece → List UInt8
  | .byte c => [c]
  | .literal body => ch '"' :: (body ++ [ch '"'])
  | .lineComment body => ch '/' :: ch '/' :: body
  | .blockComment body => ch '/' :: ch '*' :: (body ++ [ch '*', ch '/'])

/-- The inside of a literal: each quote is escaped, and each backslash escapes something. -/
def literalBody : List UInt8 → Bool
  | [] => true
  | c :: s =>
    if c = ch '\\' then
      match s with
      | [] => false
      | _ :: s => literalBody s
    else c ≠ ch '"' && literalBody s

/-- What a piece must be like to be read as that piece -/
def Piece.WellFormed : Piece → Prop
  | .byte c => c ≠ ch '"' ∧ c ≠ ch '/' ∧ c ≠ ch '\\'
  | .literal body => literalBody body
  | .lineComment body => ch '\r' ∉ body ∧ ch '\n' ∉ body
  | .blockComment body => ¬ [ch '*', ch '/'] <:+: body

/-- The text of several pieces -/
def text (ps : List Piece) : List UInt8 := ps.flatMap Piece.text

/-- A line comment ends at a line break or at the end of the text. -/
def LinesEnd : List Piece → Prop
  | [] => True
  | .lineComment _ :: ps =>
    (∀ c ∈ (text ps).head?, c = ch '\r' ∨ c = ch '\n') ∧ LinesEnd ps
  | _ :: ps => LinesEnd ps

/-- A text of JSON tokens, white space and comments -/
structure CommentedText where
  pieces : List Piece
  wellFormed : ∀ p ∈ pieces, p.WellFormed
  linesEnd : LinesEnd pieces
  noNul : 0 ∉ text pieces

end Nstd.Json
