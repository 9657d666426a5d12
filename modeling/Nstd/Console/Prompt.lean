import Mathlib.Algebra.Order.Ring.Int
import Nstd.Document.Variant
import Nstd.Text.Utf8

/-!
# The prompt of `Console`

The line that is typed, its history, and the bytes that show it on a terminal.

* `Prompt` — what `Private` knows of a line; a position of the history is an index.
* `moveCursorPosition`, `promptWrite`, `promptClear` — what is written.
* `promptInsert`, …, `promptHistoryDown` — the operations; `none` where one reads beyond something.
* `handleInput`, `getLine` — the keys of a line, from the first one to the return key.
-/

namespace Nstd.Console

open Unicode (appendAll)

/-- The members of `Private` that belong to a line -/
structure Prompt where
  utf8 : Bool
  bufferedOutput : List UInt8
  stdoutScreenWidth : ℕ
  prompt : List UInt32
  input : List UInt32
  inputComplete : Bool
  caretPos : ℕ
  history : List (List UInt8)
  historyPos : ℕ
  historyRemoveLast : Bool
deriving Inhabited

/-! ## Texts -/

/-- `concharArrayToString` -/
def concharArrayToString (utf8 : Bool) (data : List UInt32) : List UInt8 :=
  if utf8 then (appendAll data []).2 else data.map UInt32.toUInt8

/-- `stringToConcharArray` -/
def stringToConcharArray (utf8 : Bool) (data : List UInt8) : Option (List UInt32) :=
  if utf8 then Unicode.stringToConcharArray data else some (data.map UInt8.toUInt32)

namespace Prompt

/-! ## Output -/

/-- `(int)n` -/
def toInt (n : ℕ) : ℤ := (n : ℤ).bmod (2 ^ 32)

/-- What `printf("\x1b[%d…", (int)n)` writes -/
def moveCmd (n : ℕ) (final : Char) : List UInt8 := 0x1b :: ch '[' :: intText (toInt n) ++ [ch final]

/-- `writeConsole` -/
def writeConsole (p : Prompt) (data : List UInt8) : Prompt :=
  { p with bufferedOutput := p.bufferedOutput ++ data }

/-- `moveCursorPosition` -/
def moveCursorPosition (p : Prompt) (source : ℕ) (x : ℤ) : Prompt :=
  let target := (source + x).toNat
  let oldY := source / p.stdoutScreenWidth
  let oldX := source % p.stdoutScreenWidth
  let newY := target / p.stdoutScreenWidth
  let newX := target % p.stdoutScreenWidth
  let vertical :=
    if newY < oldY then moveCmd (oldY - newY) 'A'
    else if newY > oldY then moveCmd (newY - oldY) 'B' else []
  let horizontal :=
    if newX < oldX then moveCmd (oldX - newX) 'D'
    else if newX > oldX then moveCmd (newX - oldX) 'C' else []
  p.writeConsole (vertical ++ horizontal)

/-- The loop of `promptWrite` that breaks the lines -/
def wrappedBuffer (width : ℕ) (buffer : List UInt32) : List UInt32 :=
  if _h : buffer = [] ∨ width = 0 then []
  else
    let lineEnd := min buffer.length width
    buffer.take lineEnd ++ (if lineEnd = width then [0x0d, 0x0a] else [])
      ++ wrappedBuffer width (buffer.drop width)
  termination_by buffer.length
  decreasing_by
    have hpos := List.length_pos_iff.mpr (not_or.mp _h).1
    have hwidth := Nat.pos_of_ne_zero (not_or.mp _h).2
    rw [List.length_drop]
    omega

def autoWrapOff : List UInt8 := 0x1b :: bytes "[?7l"

def autoWrapOn : List UInt8 := 0x1b :: bytes "[?7h"

/-- `promptWrite` -/
def promptWrite (p : Prompt) (offset : ℕ) (clearStr : List UInt8) : Prompt :=
  let offset := offset + offset / p.stdoutScreenWidth * 2
  let buffer := p.prompt ++ p.input ++ clearStr.map UInt8.toUInt32
  let wrapped := wrappedBuffer p.stdoutScreenWidth buffer
  let dataToWrite := (appendAll (wrapped.drop offset) autoWrapOff).2 ++ autoWrapOn
  let p := p.writeConsole dataToWrite
  if p.caretPos < p.input.length + clearStr.length then
    p.moveCursorPosition (p.prompt.length + p.input.length + clearStr.length)
      (-((p.input.length + clearStr.length - p.caretPos : ℕ) : ℤ))
  else p

/-- `promptClear` -/
def promptClear (p : Prompt) : Prompt :=
  let bufferLen := p.prompt.length + p.input.length
  let additionalLines := bufferLen / p.stdoutScreenWidth
  if additionalLines ≠ 0 then
    let p := p.moveCursorPosition (p.prompt.length + p.caretPos) (-((p.caretPos + p.prompt.length : ℕ) : ℤ))
    let clearLine := List.replicate p.stdoutScreenWidth (ch ' ') ++ [0x0a, 0x0d]
    let clearCmd := autoWrapOff ++ (List.replicate additionalLines clearLine).flatten
      ++ List.replicate (bufferLen - additionalLines * p.stdoutScreenWidth) (ch ' ') ++ autoWrapOn
    let p := p.writeConsole clearCmd
    p.moveCursorPosition (p.prompt.length + p.input.length) (-(bufferLen : ℤ))
  else
    p.writeConsole (autoWrapOff ++ 0x0d :: List.replicate bufferLen (ch ' ') ++ 0x0d :: autoWrapOn)

/-! ## Operations -/

/-- `promptInsert` -/
def promptInsert (p : Prompt) (character : UInt32) : Prompt :=
  let input :=
    if p.caretPos ≠ p.input.length then
      p.input.take p.caretPos ++ [character] ++ p.input.drop p.caretPos
    else p.input ++ [character]
  let oldCaretPos := p.caretPos
  let p := { p with input := input, caretPos := p.caretPos + 1 }
  p.promptWrite (p.prompt.length + oldCaretPos) []

/-- `promptMoveLeft` -/
def promptMoveLeft (p : Prompt) : Prompt :=
  if p.caretPos > 0 then
    let p := p.moveCursorPosition (p.prompt.length + p.caretPos) (-1)
    { p with caretPos := p.caretPos - 1 }
  else p

/-- `promptRemove` -/
def promptRemove (p : Prompt) : Prompt :=
  if p.input ≠ [] ∧ p.caretPos > 0 then
    let input :=
      if p.caretPos ≠ p.input.length then
        p.input.take (p.caretPos - 1) ++ p.input.drop p.caretPos
      else p.input.take (p.input.length - 1)
    let p := { p with input := input }
    let p := p.promptMoveLeft
    p.promptWrite (p.prompt.length + p.caretPos) (bytes " ")
  else p

/-- `promptRemoveNext` -/
def promptRemoveNext (p : Prompt) : Prompt :=
  if p.caretPos < p.input.length then
    let input :=
      if p.caretPos ≠ p.input.length - 1 then
        p.input.take p.caretPos ++ p.input.drop (p.caretPos + 1)
      else p.input.take p.caretPos
    let p := { p with input := input }
    p.promptWrite (p.prompt.length + p.caretPos) (bytes " ")
  else p

/-- `promptMoveHome` -/
def promptMoveHome (p : Prompt) : Prompt :=
  if p.caretPos > 0 then
    let p := p.moveCursorPosition (p.prompt.length + p.caretPos) (-(p.caretPos : ℤ))
    { p with caretPos := 0 }
  else p

/-- `promptMoveRight` -/
def promptMoveRight (p : Prompt) : Prompt :=
  if p.caretPos < p.input.length then
    let p := p.moveCursorPosition (p.prompt.length + p.caretPos) 1
    { p with caretPos := p.caretPos + 1 }
  else p

/-- `promptMoveEnd` -/
def promptMoveEnd (p : Prompt) : Prompt :=
  if p.caretPos < p.input.length then
    let p := p.moveCursorPosition (p.prompt.length + p.caretPos) ((p.input.length - p.caretPos : ℕ) : ℤ)
    { p with caretPos := p.input.length }
  else p

/-- The entry at `historyPos` becomes the line. -/
def showEntry (p : Prompt) : Option Prompt := do
  let p := p.promptClear
  let entry ← p.history[p.historyPos]?
  let input ← stringToConcharArray p.utf8 entry
  let p := { p with input := input }
  let p := { p with caretPos := p.input.length }
  return p.promptWrite 0 []

/-- `promptHistoryUp` -/
def promptHistoryUp (p : Prompt) : Option Prompt :=
  if p.historyPos = 0 then some p
  else
    let currentLine := concharArrayToString p.utf8 p.input
    let p :=
      if p.historyPos = p.history.length then
        { p with
          historyPos := p.historyPos - 1
          history := p.history ++ [currentLine]
          historyRemoveLast := true }
      else
        { p with
          history := p.history.set p.historyPos currentLine
          historyPos := p.historyPos - 1 }
    p.showEntry

/-- `promptHistoryDown` -/
def promptHistoryDown (p : Prompt) : Option Prompt :=
  if p.historyPos = p.history.length then some p
  else do
    let currentLine := concharArrayToString p.utf8 p.input
    let p := { p with
      history := p.history.set p.historyPos currentLine
      historyPos := p.historyPos + 1 }
    let p ← p.showEntry
    let next := p.historyPos + 1
    if next = p.history.length then
      let history := p.history.dropLast
      return { p with history := history, historyPos := history.length, historyRemoveLast := false }
    else return p

/-! ## Keys -/

/-- `handleInput`, with what `readChar` left in the buffer -/
def handleInput (p : Prompt) (input : List UInt8) (len : ℕ) : Option Prompt := do
  let first ← input[0]?
  if first = 0x1b then
    let bracket ← input[1]?
    if bracket = ch '[' then
      let key ← input[2]?
      if key = ch 'A' then p.promptHistoryUp
      else if key = ch 'B' then p.promptHistoryDown
      else if key = ch 'C' then return p.promptMoveRight
      else if key = ch 'D' then return p.promptMoveLeft
      else if key = ch 'H' then return p.promptMoveHome
      else if key = ch 'F' then return p.promptMoveEnd
      else if key = ch '3' then
        let last ← input[3]?
        if last = ch '~' then return p.promptRemoveNext else return p
      else return p
    else return p
  else
    let c ← if p.utf8 then Unicode.fromString input len else some first.toUInt32
    if c = 0x09 then return p
    else if c = 0x0d then return { p with inputComplete := true }
    else if c = 0x08 ∨ c = 127 then return p.promptRemove
    else return p.promptInsert c

/-- The part of `getLine` before its loop, behind `saveCursorPosition` -/
def start (p : Prompt) (prompt : List UInt8) : Option Prompt := do
  let prompt ← stringToConcharArray p.utf8 prompt
  let p := { p with
    prompt := prompt
    historyPos := p.history.length
    historyRemoveLast := false
    input := []
    inputComplete := false
    caretPos := 0 }
  return p.promptWrite 0 []

/-- The loop of `getLine`, over what `readChar` reads -/
def inputLoop (p : Prompt) : List (List UInt8 × ℕ) → Option Prompt
  | [] => some p
  | buffer :: buffers => do
    let p ← p.handleInput buffer.1 buffer.2
    if p.inputComplete then return p else p.inputLoop buffers

/-- The part of `getLine` behind its loop: the result, and what is left -/
def finish (p : Prompt) : List UInt8 × Prompt :=
  let p := p.promptClear
  let result := concharArrayToString p.utf8 p.input
  let p := if p.historyRemoveLast then { p with history := p.history.dropLast } else p
  let p := if result ≠ [] then { p with history := p.history ++ [result] } else p
  (result, p)

/-- `getLine` -/
def getLine (p : Prompt) (prompt : List UInt8) (buffers : List (List UInt8 × ℕ)) :
    Option (List UInt8 × Prompt) := do
  let p ← p.start prompt
  let p ← p.inputLoop buffers
  return p.finish

end Prompt

end Nstd.Console
