import Nstd.Core.RefHeap
import Nstd.Core.Bytes

/-!
# `String` and its blocks

A string points to `emptyData`, to bytes that are not its own, or to a block that strings share until
one of them is written to.

* `Cell` — a string: what `data` points to.
* `Data` — what is in a block: the bytes, of which there is one more than the capacity, and the
  length.
* `put`, `take` — writing to and reading from memory, which fail beyond its end.
* `Usize` — how lengths are counted: in numbers of any size, or in those of a machine, which wrap.
* `create` — a new block, of the size that is computed for it.
* `detach` — the one function that decides whether a string is written to in place.
* `Op`, `Move`, `step` — what a program does with several strings.
-/

namespace Nstd.Strings

/-- How the numbers of the type `usize` are counted -/
class Usize where
  wrap : ℕ → ℕ

/-- Numbers of any size, which are meant where nothing else is said: lengths that fit into memory -/
instance Usize.unbounded : Usize := ⟨fun n => n⟩

/-- The numbers of the machine -/
abbrev Usize.machine : Usize := ⟨fun n => n % 2 ^ 64⟩

@[simp] lemma Usize.unbounded_wrap (n : ℕ) : Usize.unbounded.wrap n = n := rfl

/-- What is in a block behind the count -/
structure Data where
  str : List UInt8
  len : ℕ
  capacity : ℕ

/-- A string: `data` points to `emptyData`, to `_data` with bytes from outside, or to a block. -/
inductive Cell
  | empty
  | attached (str : List UInt8)
  | block (data : ℕ)
  deriving DecidableEq

/-- There are no pointers in blocks.  Its value is the bytes below the length. -/
instance : Content Data (List UInt8) where
  pointers _ := []
  value c _ := c.str.take c.len

/-- The block that a string points to -/
def Cell.pointers : Cell → List ℕ
  | .block data => [data]
  | _ => []

/-! ## Memory -/

/-- `Memory::copy` to a place in memory -/
def put (str : List UInt8) (i : ℕ) (bytes : List UInt8) : Option (List UInt8) :=
  if i + bytes.length ≤ str.length then
    some (str.take i ++ bytes ++ str.drop (i + bytes.length))
  else none

/-- `Memory::copy` from the beginning of memory -/
def take (str : List UInt8) (n : ℕ) : Option (List UInt8) :=
  if n ≤ str.length then some (str.take n) else none

/-- `for(; *str; ++str)`, which replaces each byte -/
def replaceBytes (f : UInt8 → UInt8) : List UInt8 → Option (List UInt8)
  | [] => none
  | c :: str => if c = 0 then some (c :: str) else do
      let str ← replaceBytes f str
      some (f c :: str)

/-- Bytes are copied to the beginning of memory, and behind them is the end of the string. -/
def putString (bytes str : List UInt8) : Option (List UInt8) := do
  let str ← put str 0 bytes
  put str bytes.length [0]

/-- What `detach` copies to a new block -/
def putDetached (bytes : List UInt8) (len copyLength : ℕ) (str : List UInt8) : Option (List UInt8) :=
  if len > 0 then do
    let bytes ← take bytes (if len < copyLength then len else copyLength)
    let str ← put str 0 bytes
    put str copyLength [0]
  else put str 0 [0]

/-- The bytes of a string and whatever is behind them -/
def strOf (h : Heap Data) : Cell → Option (List UInt8)
  | .empty => some [0]
  | .attached str => some str
  | .block data => (h.get? data).map fun b => b.content.str

/-- `data->len` -/
def lenOf (h : Heap Data) : Cell → Option ℕ
  | .empty => some 0
  | .attached str => some str.length
  | .block data => (h.get? data).map fun b => b.content.len

section

-- what is in the memory of each block before anything is written to it
variable [Usize] (memory : ℕ → ℕ → UInt8)

/-- `sizeof(Data)` -/
def sizeofData : ℕ := 32

/-- `new char[(capacity + 1) * sizeof(char) + sizeof(Data)]`, and then what is written to the block
    behind its `Data`.  A size that wraps is one without a byte for the string. -/
def create (h : Heap Data) (capacity len : ℕ) (write : List UInt8 → Option (List UInt8)) :
    Option (Heap Data × ℕ) := do
  let size := Usize.wrap (capacity + 1 + sizeofData)
  let str ← write ((List.range (size - sizeofData)).map (memory h.blocks.length))
  some (h.new ⟨str, len, capacity⟩)

/-- Changes what is in a block. -/
def edit (h : Heap Data) (data : ℕ) (f : Data → Option Data) : Option (Heap Data) := do
  let b ← h.get? data
  let content ← f b.content
  some (h.write data (some { b with content }))

/-! ## The functions -/

/-- `String(const char*, usize)` -/
def ofBytes (h : Heap Data) (str : List UInt8) : Option (Heap Data × Cell) := do
  let (h, data) ← create memory h (str.length ||| 3) str.length (putString str)
  some (h, .block data)

/-- `String(usize, char)` -/
def ofChar (h : Heap Data) (length : ℕ) (c : UInt8) : Option (Heap Data × Cell) := do
  let (h, data) ← create memory h (length ||| 3) length (putString (List.replicate length c))
  some (h, .block data)

/-- `String(usize)` -/
def ofCapacity (h : Heap Data) (capacity : ℕ) : Option (Heap Data × Cell) := do
  let (h, data) ← create memory h capacity 0 (put · 0 [0])
  some (h, .block data)

/-- `String(const String&)` -/
def copy (h : Heap Data) : Cell → Option (Heap Data × Cell)
  | .block data => do
    let h ← h.increment data
    some (h, .block data)
  | .empty => some (h, .empty)
  | .attached str => ofBytes memory h str

/-- `~String`, and where `data` gets another value -/
def release (h : Heap Data) : Cell → Option (Heap Data)
  | .block data => h.release [data]
  | _ => some h

/-- `detach` in place -/
def detachHere (copyLength : ℕ) (content : Data) : Option Data := do
  let str ← put content.str copyLength [0]
  some { content with str, len := copyLength }

/-- `detach` to a new block -/
def detachNew (h : Heap Data) (this : Cell) (copyLength minCapacity : ℕ) :
    Option (Heap Data × ℕ) := do
  let str ← strOf h this
  let len ← lenOf h this
  let (h, newData) ← create memory h (minCapacity ||| 3) copyLength (putDetached str len copyLength)
  let h ← release h this
  some (h, newData)

/-- `detach`; the string points to the block that is returned. -/
def detach (h : Heap Data) (this : Cell) (copyLength minCapacity : ℕ) : Option (Heap Data × ℕ) :=
  match this with
  | .block data => do
    let b ← h.get? data
    if b.ref = 1 ∧ minCapacity ≤ b.content.capacity then
      let h ← edit h data (detachHere copyLength)
      some (h, data)
    else detachNew memory h this copyLength minCapacity
  | _ => detachNew memory h this copyLength minCapacity

/-- `clear` -/
def clear (h : Heap Data) (this : Cell) : Option (Heap Data × Cell) :=
  match this with
  | .block data => do
    let b ← h.get? data
    if b.ref = 1 then
      let h ← edit h data (detachHere 0)
      some (h, this)
    else
      let h ← release h this
      some (h, .empty)
  | _ => some (h, .empty)

/-- `attach` -/
def attach (h : Heap Data) (this : Cell) (str : List UInt8) : Option (Heap Data × Cell) := do
  let h ← release h this
  some (h, .attached str)

/-- A `const String&`: the string itself, or another one -/
inductive Arg
  | self
  | other (c : Cell)

/-- What an argument refers to while the string is `this` -/
def Arg.cell (this : Cell) : Arg → Cell
  | .self => this
  | .other c => c

/-- `operator=(const String&)` -/
def assign (h : Heap Data) (this : Cell) (other : Arg) : Option (Heap Data × Cell) :=
  match other.cell this with
  | .block otherData => do
    let h ← h.increment otherData
    let h ← release h this
    some (h, .block otherData)
  | .attached str => do
    let h ← release h this
    ofBytes memory h str
  | .empty => do
    let h ← release h this
    ofBytes memory h []

/-- Bytes are copied into a block, and behind them is the end of the string. -/
def fill (i : ℕ) (bytes : List UInt8) (newLen : ℕ) (content : Data) : Option Data := do
  let str ← put content.str i bytes
  let str ← put str newLen [0]
  some { content with str, len := newLen }

/-- `append(const String&)` -/
def append (h : Heap Data) (this : Cell) (str : Arg) : Option (Heap Data × Cell) := do
  let len ← lenOf h this
  let strLen ← lenOf h (str.cell this)
  let newLen := Usize.wrap (len + strLen)
  let (h, data) ← detach memory h this len newLen
  let bytes ← strOf h (str.cell (.block data))
  let strLen ← lenOf h (str.cell (.block data))
  let bytes ← take bytes strLen
  let h ← edit h data (fill len bytes newLen)
  some (h, .block data)

/-- `append(const char*, usize)`, and `append(const char)` for one byte -/
def appendBytes (h : Heap Data) (this : Cell) (str : List UInt8) :
    Option (Heap Data × Cell) := do
  let len ← lenOf h this
  let newLen := Usize.wrap (len + str.length)
  let (h, data) ← detach memory h this len newLen
  let h ← edit h data (fill len str newLen)
  some (h, .block data)

/-- Both copies of `prepend` -/
def prependFill (bytes copyBytes : List UInt8) (newLen : ℕ) (content : Data) : Option Data := do
  let str ← put content.str 0 bytes
  fill bytes.length copyBytes newLen { content with str }

/-- `prepend(const String&)` -/
def prepend (h : Heap Data) (this : Cell) (str : Arg) : Option (Heap Data × Cell) := do
  let (h, copy) ← copy memory h this
  let strLen ← lenOf h (str.cell this)
  let copyLen ← lenOf h copy
  let newLen := Usize.wrap (strLen + copyLen)
  let (h, data) ← detach memory h this 0 newLen
  let bytes ← strOf h (str.cell (.block data))
  let strLen ← lenOf h (str.cell (.block data))
  let bytes ← take bytes strLen
  let copyBytes ← strOf h copy
  let copyBytes ← take copyBytes copyLen
  let h ← edit h data (prependFill bytes copyBytes newLen)
  let h ← release h copy
  some (h, .block data)

/-- `prepend(const char*, usize)` -/
def prependBytes (h : Heap Data) (this : Cell) (str : List UInt8) :
    Option (Heap Data × Cell) := do
  let (h, copy) ← copy memory h this
  let copyLen ← lenOf h copy
  let newLen := Usize.wrap (str.length + copyLen)
  let (h, data) ← detach memory h this 0 newLen
  let copyBytes ← strOf h copy
  let copyBytes ← take copyBytes copyLen
  let h ← edit h data (prependFill str copyBytes newLen)
  let h ← release h copy
  some (h, .block data)

/-- `detach()` -/
def detachAll (h : Heap Data) (this : Cell) : Option (Heap Data × ℕ) := do
  let len ← lenOf h this
  detach memory h this len len

/-- `resize` -/
def resize (h : Heap Data) (this : Cell) (length : ℕ) : Option (Heap Data × Cell) := do
  let (h, data) ← detach memory h this length length
  some (h, .block data)

/-- `reserve` -/
def reserve (h : Heap Data) (this : Cell) (size : ℕ) : Option (Heap Data × Cell) := do
  let len ← lenOf h this
  let (h, data) ← detach memory h this len (if size < len then len else size)
  some (h, .block data)

/-- Replaces each byte of what is in a block. -/
def replaceIn (f : UInt8 → UInt8) (content : Data) : Option Data := do
  let str ← replaceBytes f content.str
  some { content with str }

/-- Sets bytes of what is in a block. -/
def setIn (writes : List (ℕ × UInt8)) (content : Data) : Option Data :=
  some { content with str := writes.foldl (fun str w => str.set w.1 w.2) content.str }

/-- The loop of `toLowerCase`, `toUpperCase` and `replace` after `detach` -/
def replaceWith (f : UInt8 → UInt8) (h : Heap Data) (this : Cell) :
    Option (Heap Data × Cell) := do
  let (h, data) ← detachAll memory h this
  let h ← edit h data (replaceIn f)
  some (h, .block data)

/-- `toLowerCase` -/
def toLowerCase : Heap Data → Cell → Option (Heap Data × Cell) :=
  replaceWith memory fun c => if ch 'A' ≤ c ∧ c ≤ ch 'Z' then c + 32 else c

/-- `toUpperCase` -/
def toUpperCase : Heap Data → Cell → Option (Heap Data × Cell) :=
  replaceWith memory fun c => if ch 'a' ≤ c ∧ c ≤ ch 'z' then c - 32 else c

/-- `replace(char, char)` -/
def replace (needle replacement : UInt8) : Heap Data → Cell → Option (Heap Data × Cell) :=
  replaceWith memory fun c => if c = needle then replacement else c

/-- `operator char*`, and then bytes are written where the memory of the string is -/
def writeBytes (writes : List (ℕ × UInt8)) (h : Heap Data) (this : Cell) :
    Option (Heap Data × Cell) := do
  let (h, data) ← detachAll memory h this
  let h ← edit h data (setIn writes)
  some (h, .block data)

/-! ## Variables -/

/-- How a string is constructed -/
inductive Init
  | default
  /-- from a literal -/
  | attach (str : List UInt8)
  | copy (y : ℕ)
  | ofBytes (str : List UInt8)
  | ofChar (length : ℕ) (c : UInt8)
  | ofCapacity (capacity : ℕ)

/-- What is done to a string; numbers are those of variables, which may be the string itself. -/
inductive Op
  | assign (y : ℕ)
  | attach (str : List UInt8)
  | detach
  | clear
  | resize (length : ℕ)
  | reserve (size : ℕ)
  | append (y : ℕ)
  | appendBytes (str : List UInt8)
  | prepend (y : ℕ)
  | prependBytes (str : List UInt8)
  | toLowerCase
  | toUpperCase
  | replace (needle replacement : UInt8)
  | write (writes : List (ℕ × UInt8))

/-- What an operation does to a string; `arg` are the strings that its arguments refer to. -/
def Op.run (arg : ℕ → Option Arg) (h : Heap Data) (this : Cell) : Op → Option (Heap Data × Cell)
  | .assign y =>
    match arg y with
    | none => some (h, this)
    | some other => Strings.assign memory h this other
  | .attach str => Strings.attach h this str
  | .detach => do
    let (h, data) ← detachAll memory h this
    some (h, .block data)
  | .clear => Strings.clear h this
  | .resize length => Strings.resize memory h this length
  | .reserve size => Strings.reserve memory h this size
  | .append y =>
    match arg y with
    | none => some (h, this)
    | some str => Strings.append memory h this str
  | .appendBytes str => Strings.appendBytes memory h this str
  | .prepend y =>
    match arg y with
    | none => some (h, this)
    | some str => Strings.prepend memory h this str
  | .prependBytes str => Strings.prependBytes memory h this str
  | .toLowerCase => Strings.toLowerCase memory h this
  | .toUpperCase => Strings.toUpperCase memory h this
  | .replace needle replacement => Strings.replace memory needle replacement h this
  | .write writes => writeBytes memory writes h this

/-- Variables, `none` where no string is constructed, and the blocks that they point to -/
structure State where
  heap : Heap Data
  vars : List (Option Cell)

/-- Room for variables -/
def State.initial (n : ℕ) : State := ⟨.empty, List.replicate n none⟩

/-- The string of a variable -/
def State.get (s : State) (x : ℕ) : Option Cell := s.vars[x]?.join

/-- The argument that a variable is -/
def State.arg (s : State) (x y : ℕ) : Option Arg :=
  if y = x then some .self else (s.get y).map .other

/-- The string that is constructed, if there is one to copy -/
def Init.run (s : State) : Init → Option (Heap Data × Option Cell)
  | .default => some (s.heap, some .empty)
  | .attach str => some (s.heap, some (.attached str))
  | .copy y =>
    match s.get y with
    | none => some (s.heap, none)
    | some other => do
      let (h, this) ← Strings.copy memory s.heap other
      some (h, some this)
  | .ofBytes str => do
    let (h, this) ← Strings.ofBytes memory s.heap str
    some (h, some this)
  | .ofChar length c => do
    let (h, this) ← Strings.ofChar memory s.heap length c
    some (h, some this)
  | .ofCapacity capacity => do
    let (h, this) ← Strings.ofCapacity memory s.heap capacity
    some (h, some this)

/-- What a program does next -/
inductive Move
  | construct (x : ℕ) (init : Init)
  | op (x : ℕ) (op : Op)
  | destroy (x : ℕ)

/-- The variable that a move may change -/
def Move.target : Move → ℕ
  | .construct x _ => x
  | .op x _ => x
  | .destroy x => x

/-- The state after a move, `none` if memory was used that is not there; a move with variables that
    are not there, or of which one is to be constructed twice, does nothing. -/
def step (s : State) : Move → Option State
  | .construct x init =>
    if s.vars[x]? = some none then do
      let (heap, this) ← init.run memory s
      some ⟨heap, s.vars.set x this⟩
    else some s
  | .op x op =>
    match s.get x with
    | none => some s
    | some this => do
      let (heap, this) ← op.run memory (s.arg x) s.heap this
      some ⟨heap, s.vars.set x (some this)⟩
  | .destroy x =>
    match s.get x with
    | none => some s
    | some this => do
      let heap ← release s.heap this
      some ⟨heap, s.vars.set x none⟩

end

end Nstd.Strings
