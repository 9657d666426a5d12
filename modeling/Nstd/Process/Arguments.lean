import Mathlib.Data.Int.Notation
import Mathlib.Data.Nat.Notation
import Mathlib.Tactic.Lemma
import Nstd.Core.Bytes
import Nstd.Core.System

/-!
# `Process::Arguments`

The command line is read one option at a time.

* `Text`, `deref`, `compare`, `find` — texts that end with a NUL, and functions of `String`.
* `ProcessOption`, `Result` — an entry of the table of options, and what `read` sets.
* `nextChar`, `read` — the code.  It fails when it looks behind the NUL of a text.
* `system` — calls of `read` after each other.
-/

namespace Nstd.Arguments

/-- A byte before the NUL of a text -/
abbrev Letter := { c : UInt8 // c ≠ 0 }

/-- What a `const char*` points to, up to the NUL -/
abbrev Text := List Letter

/-- The bytes of a text -/
def Text.bytes (s : Text) : List UInt8 := s.map Subtype.val

/-- The text of a literal -/
def text (s : String) : Text :=
  (Nstd.bytes s).filterMap fun c => if h : c ≠ 0 then some ⟨c, h⟩ else none

/-- `*s` -/
def deref : Text → UInt8
  | [] => 0
  | c :: _ => c

/-- `String::compare(s1, s2, len)` -/
def compare : Text → Text → ℕ → ℤ
  | _, _, 0 => 0
  | s1, s2, len + 1 =>
    if deref s1 = 0 ∨ deref s1 ≠ deref s2 then (deref s1).toNat - (deref s2).toNat
    else compare s1.tail s2.tail len

/-- `String::find(in, c)`: the text from that byte on -/
def find (c : UInt8) : Text → Option Text
  | [] => none
  | d :: s => if d.1 = c then some (d :: s) else find c s

/-- A `char` as an `int` -/
def char (c : UInt8) : ℤ := c.toInt8.toInt

def argumentFlag : BitVec 32 := 0x1
def optionalFlag : BitVec 32 := 0x2

/-- `Process::Option` -/
structure ProcessOption where
  character : ℤ
  name : Option Text
  flags : BitVec 32

/-- What `read` sets when it returns `true` -/
structure Result where
  character : ℤ
  argument : List UInt8
  deriving DecidableEq

/-- The fields of `Process::Arguments`; an `arg` of `none` points behind the NUL of its text. -/
structure State where
  argv : List Text
  arg : Option Text
  inOpt : Bool
  skipOpt : Bool

/-- The constructor; the first element is the name of the program. -/
def State.start (argv : List Text) : State := ⟨argv.tail, some [], false, false⟩

/-- `nextChar` -/
def nextChar (s : State) : Option (State × Bool) :=
  match s.arg with
  | none => none
  | some (_ :: arg) => some ({ s with arg := some arg }, true)
  | some [] =>
    match s.argv with
    | arg :: argv => some ({ s with argv, arg := some arg, inOpt := false }, true)
    | [] => some (s, false)

/-- What is left of the text is the argument of the result. -/
def attach (s : State) (character : ℤ) : Option (State × Option Result) := do
  let arg ← s.arg
  some ({ s with arg := some [] }, some ⟨character, arg.bytes⟩)

/-- `opt->flags & argumentFlag && !(opt->flags & optionalFlag)` -/
def ProcessOption.needsArgument (opt : ProcessOption) : Bool :=
  opt.flags &&& argumentFlag ≠ 0 ∧ opt.flags &&& optionalFlag = 0

/-- `opt->name && String::compare(opt->name, arg, argLen) == 0 && !opt->name[argLen]` -/
def ProcessOption.named (opt : ProcessOption) (arg : Text) (argLen : ℕ) : Bool :=
  match opt.name with
  | none => false
  | some name => compare name arg argLen = 0 ∧ deref (name.drop argLen) = 0

/-- The branch for a text that begins with `--` and goes on with `arg` -/
def readLong (options : List ProcessOption) (s : State) (arg : Text) : Option (State × Option Result) :=
  let last := find (ch '=') arg
  let argLen := match last with
    | some last => arg.length - last.length
    | none => arg.length
  match options.find? fun opt => opt.named arg argLen with
  | some opt =>
    let s := { s with arg := some (arg.drop (if last.isSome then argLen + 1 else argLen)) }
    if opt.flags &&& argumentFlag ≠ 0 then
      if last.isSome then attach s opt.character
      else if opt.flags &&& optionalFlag = 0 then do
        let (s, more) ← nextChar s
        if more then attach s opt.character
        else some (s, some ⟨char (ch ':'), bytes "--" ++ Text.bytes (arg.take argLen)⟩)
      else some (s, some ⟨opt.character, []⟩)
    else some (s, some ⟨opt.character, []⟩)
  | none =>
    some ({ s with arg := some [] }, some ⟨char (ch '?'), bytes "--" ++ Text.bytes arg⟩)

/-- The first entry with a character -/
def letterOption (options : List ProcessOption) (character : ℤ) : Option ProcessOption :=
  options.find? fun opt => opt.character = character

/-- The branch for a letter, which `arg` begins with -/
def readLetter (options : List ProcessOption) (s : State) (arg : Text) :
    Option (State × Option Result) :=
  -- `*(arg++)` goes behind the NUL when there is no letter.
  let s := { s with arg := match arg with
    | [] => none
    | _ :: arg => some arg }
  let character := char (deref arg)
  match letterOption options character with
  | some opt =>
    if opt.needsArgument then do
      let rest ← s.arg
      if rest.isEmpty then do
        let (s, more) ← nextChar s
        if more then attach s character
        else some (s, some ⟨char (ch ':'), [ch '-', deref arg]⟩)
      else attach s character
    else some (s, some ⟨character, []⟩)
  | none => some (s, some ⟨char (ch '?'), [ch '-', deref arg]⟩)

/-- The end of `read`: a letter, or an argument that is no option -/
def readRest (options : List ProcessOption) (s : State) : Option (State × Option Result) := do
  let arg ← s.arg
  if s.inOpt then readLetter options s arg else attach s 0

/-- The branch for an element `arg` that begins with `-` -/
def readOption (options : List ProcessOption) (s : State) (arg : Text) :
    Option (State × Option Result) :=
  if deref arg.tail = ch '-' then
    let arg := arg.tail.tail
    if deref arg = 0 then do
      let (s, more) ← nextChar { s with arg := some arg, skipOpt := true }
      if more then readRest options s else some (s, none)
    else readLong options s arg
  else if deref arg.tail = 0 then
    some ({ s with arg := some arg.tail }, some ⟨0, [ch '-']⟩)
  else readRest options { s with arg := some arg.tail, inOpt := true }

/-- `read`; no result is a `false`. -/
def read (options : List ProcessOption) (s : State) : Option (State × Option Result) := do
  let (s, more) ← nextChar s
  if more then do
    let arg ← s.arg
    if !s.inOpt && !s.skipOpt && deref arg = ch '-' then readOption options s arg
    else readRest options s
  else some (s, none)

/-- Calls of `read` in states that are `ok`; those are shown that return `true`. -/
def system (options : List ProcessOption) (argv : List Text) (ok : State → Prop) :
    System State Result where
  initial s := s = .start argv
  step s results s' :=
    ok s ∧ ∃ result, read options s = some (s', result) ∧ results = result.toList

end Nstd.Arguments
