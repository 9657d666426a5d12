import Nstd.Core.MemoryBlocks

/-!
# `Buffer`

A `Buffer` has room at both ends of its bytes.  Pointers and sizes are 64 bits wide.

* `wrapAdd`, `wrapSub` — arithmetic of pointers and sizes.
* `Buffer`, `Buffer.read`, `Buffer.write`, `Buffer.terminate` — the fields and accesses to memory.
* `ofCapacity`, `ofBytes`, `assign`, `prepend`, `append`, `resize`, `reserve`, `removeFront`,
  `removeBack`, `clear`, `free`, `attach` — the code.
* `Op`, `Op.run` — one operation on a `Buffer`.
-/

namespace Nstd

/-- The sum of two 64 bit numbers -/
def wrapAdd (a b : ℕ) : ℕ := (a + b) % 2 ^ 64

/-- The difference of two 64 bit numbers -/
def wrapSub (a b : ℕ) : ℕ := (a + 2 ^ 64 - b) % 2 ^ 64

/-- The fields of a `Buffer`.  `buffer` is the block it has allocated and `attached` the last one
    that was attached; the object itself is where `capacityField`, its last field, is. -/
structure Buffer where
  capacityField : ℕ
  buffer : Option MemoryBlock
  attached : Option MemoryBlock
  bufferStart : ℕ
  bufferEnd : ℕ
  capacity : ℕ

namespace Buffer

/-- `bufferEnd - bufferStart` -/
def size (b : Buffer) : ℕ := wrapSub b.bufferEnd b.bufferStart

/-- `isEmpty` -/
def isEmpty (b : Buffer) : Bool := b.bufferStart = b.bufferEnd

/-- A read of `n` bytes -/
def read (b : Buffer) (addr n : ℕ) : Option (List UInt8) :=
  match b.buffer, b.attached with
  | some k, _ => k.read addr n
  | none, some k => k.read addr n
  | none, none => if n = 0 then some [] else none

/-- A write.  `none` is one that is not in the block of the `Buffer`. -/
def write (b : Buffer) (addr : ℕ) (bytes : List UInt8) : Option Buffer :=
  match b.buffer, b.attached with
  | some k, _ => do
    let k ← k.write addr bytes
    some { b with buffer := some k }
  | none, some k => do
    let k ← k.write addr bytes
    some { b with attached := some k }
  | none, none => if bytes = [] then some b else none

/-- `*bufferEnd = 0`.  Without a block `bufferEnd` may point to `_capacity`, and a zero may be
    written over a zero. -/
def terminate (b : Buffer) : Option Buffer :=
  if b.buffer.isNone ∧ b.bufferEnd = b.capacityField then
    if b.capacity = 0 then some b else none
  else b.write b.bufferEnd [0]

/-- `buffer ? buffer : (byte*)&_capacity` -/
def home (b : Buffer) : ℕ :=
  match b.buffer with
  | some k => k.address
  | none => b.capacityField

/-- `Buffer()` -/
def null (capacityField : ℕ) : Buffer :=
  { capacityField, buffer := none, attached := none, bufferStart := capacityField,
    bufferEnd := capacityField, capacity := 0 }

/-- `Buffer(usize capacity)` -/
def ofCapacity (A : Allocator) (capacityField capacity : ℕ) : Option Buffer :=
  let k := A.new (wrapAdd capacity 1)
  terminate { null capacityField with
    buffer := some k, bufferStart := k.address, bufferEnd := k.address, capacity }

/-- The end of `assign` and of constructors: bytes are copied to the begin of a block. -/
def fill (b : Buffer) (k : MemoryBlock) (data : List UInt8) : Option Buffer := do
  let k ← k.write k.address data
  terminate { b with
    buffer := some k, bufferStart := k.address, bufferEnd := wrapAdd k.address data.length }

/-- `Buffer(const byte* data, usize size)`, and `Buffer(const Buffer& other)` for the bytes of
    `other` -/
def ofBytes (A : Allocator) (capacityField : ℕ) (data : List UInt8) : Option Buffer :=
  fill { null capacityField with capacity := data.length } (A.new (wrapAdd data.length 1)) data

/-- `attach` -/
def attach (b : Buffer) (data : MemoryBlock) : Buffer :=
  { b with
    buffer := none, attached := some data, bufferStart := data.address,
    bufferEnd := wrapAdd data.address data.bytes.length }

/-- `assign`, and `operator=` for the bytes of `other` -/
def assign (A : Allocator) (b : Buffer) (data : List UInt8) : Option Buffer :=
  if data.length > b.capacity then
    fill { b with capacity := data.length } (A.new (wrapAdd data.length 1)) data
  else
    match b.buffer with
    | none => some b
    | some k => fill b k data

/-- The `else` branch of `prepend`: a new block -/
def prependNew (A : Allocator) (b : Buffer) (data : List UInt8) : Option Buffer := do
  let requiredCapacity := wrapAdd data.length b.size
  let k := A.new (wrapAdd requiredCapacity 1)
  let k ← k.write k.address data
  let old ← b.read b.bufferStart b.size
  let k ← k.write (wrapAdd k.address data.length) old
  some { b with
    buffer := some k, bufferStart := k.address, bufferEnd := wrapAdd k.address requiredCapacity,
    capacity := requiredCapacity }

/-- `prepend`, also for the bytes of another `Buffer` -/
def prepend (A : Allocator) (b : Buffer) (data : List UInt8) : Option Buffer :=
  match b.buffer with
  | none => prependNew A b data
  | some k =>
    if wrapSub b.bufferStart k.address ≥ data.length then
      let bufferStart := wrapSub b.bufferStart data.length
      write { b with bufferStart } bufferStart data
    else
      let requiredCapacity := wrapAdd data.length b.size
      if b.capacity ≥ requiredCapacity then do
        let old ← k.read b.bufferStart b.size
        let k ← k.write (wrapAdd k.address data.length) old
        let k ← k.write k.address data
        some { b with
          buffer := some k, bufferStart := k.address
          bufferEnd := wrapAdd k.address requiredCapacity }
      else prependNew A b data

/-- The bytes go to the begin of a new block, in which they get a new size. -/
def grow (A : Allocator) (b : Buffer) (capacity size : ℕ) : Option Buffer := do
  let k := A.new (wrapAdd capacity 1)
  let old ← b.read b.bufferStart b.size
  let k ← k.write k.address old
  terminate { b with
    buffer := some k, bufferStart := k.address, bufferEnd := wrapAdd k.address size, capacity }

/-- `resize` -/
def resize (A : Allocator) (b : Buffer) (size : ℕ) : Option Buffer :=
  if size > b.capacity then b.grow A size size
  else
    match b.buffer with
    | none => some b
    | some k =>
      if wrapAdd b.bufferStart size ≤ wrapAdd k.address b.capacity then
        terminate { b with bufferEnd := wrapAdd b.bufferStart size }
      else do
        let old ← k.read b.bufferStart b.size
        let k ← k.write k.address old
        terminate { b with
          buffer := some k, bufferStart := k.address, bufferEnd := wrapAdd k.address size }

/-- `append`, also for the bytes of another `Buffer` -/
def append (A : Allocator) (b : Buffer) (data : List UInt8) : Option Buffer := do
  let b ← b.resize A (wrapAdd b.size data.length)
  let b ← b.write (wrapSub b.bufferEnd data.length) data
  b.terminate

/-- `removeFront` -/
def removeFront (b : Buffer) (size : ℕ) : Buffer :=
  let b := { b with bufferStart := wrapAdd b.bufferStart size }
  if b.bufferStart ≥ b.bufferEnd then { b with bufferStart := b.home, bufferEnd := b.home } else b

/-- `removeBack` -/
def removeBack (b : Buffer) (size : ℕ) : Option Buffer :=
  if wrapAdd b.bufferStart size ≥ b.bufferEnd then
    terminate { b with bufferStart := b.home, bufferEnd := b.home }
  else terminate { b with bufferEnd := wrapSub b.bufferEnd size }

/-- `reserve` -/
def reserve (A : Allocator) (b : Buffer) (capacity : ℕ) : Option Buffer :=
  if capacity ≤ b.capacity then some b else b.grow A capacity b.size

/-- `clear` -/
def clear (b : Buffer) : Option Buffer :=
  match b.buffer with
  | some k => terminate { b with bufferStart := k.address, bufferEnd := k.address }
  | none => some { b with bufferEnd := b.bufferStart }

/-- `free` -/
def free (b : Buffer) : Buffer :=
  { b with
    buffer := none, bufferStart := b.capacityField, bufferEnd := b.capacityField, capacity := 0 }

/-- The bytes of a `Buffer` -/
def content (b : Buffer) : Option (List UInt8) := b.read b.bufferStart b.size

/-- Operations.  Those with `data` read it from memory; a constructor has the place of the
    object. -/
inductive Op
  | null (capacityField : ℕ)
  | ofCapacity (capacityField capacity : ℕ)
  | ofBytes (capacityField : ℕ) (data : MemoryBlock)
  | assign (data : MemoryBlock)
  | prepend (data : MemoryBlock)
  | append (data : MemoryBlock)
  | resize (size : ℕ)
  | reserve (capacity : ℕ)
  | removeFront (size : ℕ)
  | removeBack (size : ℕ)
  | clear
  | free

/-- The place of the object that a constructor makes -/
def Op.place : Op → Option ℕ
  | .null capacityField => some capacityField
  | .ofCapacity capacityField _ => some capacityField
  | .ofBytes capacityField _ => some capacityField
  | _ => none

/-- One operation; `none` is a `Buffer` that was not constructed yet. -/
def Op.run (A : Allocator) : Option Buffer → Op → Option Buffer
  | none, .null capacityField => some (.null capacityField)
  | none, .ofCapacity capacityField capacity => Buffer.ofCapacity A capacityField capacity
  | none, .ofBytes capacityField data => Buffer.ofBytes A capacityField data.bytes
  | some b, .assign data => b.assign A data.bytes
  | some b, .prepend data => b.prepend A data.bytes
  | some b, .append data => b.append A data.bytes
  | some b, .resize size => b.resize A size
  | some b, .reserve capacity => b.reserve A capacity
  | some b, .removeFront size => some (b.removeFront size)
  | some b, .removeBack size => b.removeBack size
  | some b, .clear => b.clear
  | some b, .free => some b.free
  | _, _ => none

end Buffer

end Nstd
