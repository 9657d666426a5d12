import Mathlib.Algebra.Ring.Nat
import Mathlib.Data.Nat.Notation
import Mathlib.Logic.Function.Basic
import Nstd.Core.Slots

/-!
# `Array`

An `Array` constructs its elements by hand, in storage that it allocates as bytes.  Sizes are 64 bits
wide.

* `ArrayData` — the fields.
* `allocate`, `reserve`, `copyItems`, `copy`, `assign`, `resize`, `clear`, `append`, `appendArray`,
  `appendRange`, `removeAt`, `remove`, `destruct` — the code.
* `ArrayData.Op`, `exec` — one operation of a program with many arrays.
-/

namespace Nstd

/-- The fields of an `Array`: the storage that `_begin` points to, how far `_end` is from it, and
    `_capacity` -/
structure ArrayData (T : Type) where
  storage : Option (Slots T)
  size : ℕ
  capacity : ℕ

namespace ArrayData

variable {T : Type}

/-- `Array()` -/
def null : ArrayData T := ⟨none, 0, 0⟩

/-- `Array(usize capacity)` -/
def ofCapacity (capacity : ℕ) : ArrayData T := ⟨none, 0, capacity⟩

/-- `new char[sizeof(T) * _capacity]`: the slots that there are in so many bytes -/
def allocate (sizeofT capacity : ℕ) : Slots T := .raw (sizeofT * capacity % 2 ^ 64 / sizeofT)

/-- `_capacity` after a `reserve` that allocates -/
def newCapacity (a : ArrayData T) (size : ℕ) : ℕ :=
  (if size > a.capacity then size else a.capacity) ||| 0x03

/-- `reserve`.  What was constructed and destroyed in the old storage is counted on in the new one. -/
def reserve (sizeofT : ℕ) (a : ArrayData T) (size : ℕ) : Option (ArrayData T) :=
  if size > a.capacity ∨ (a.storage.isNone ∧ size > 0) then
    let capacity := a.newCapacity size
    let newData := allocate sizeofT capacity
    match a.storage with
    | none => some { storage := some newData, size := 0, capacity }
    | some m => do
      let (m, newData) ← Slots.moveAll m newData 0 a.size
      let newData := { newData with
        constructed := newData.constructed + m.constructed
        destroyed := newData.destroyed + m.destroyed }
      some { storage := some newData, size := a.size, capacity }
  else some a

/-- The loop that copies the elements of another array, which is the same in the copy constructor
    and in `operator=` -/
def copyItems (a other : ArrayData T) : Option (ArrayData T) :=
  match a.storage, other.storage with
  | some m, some src => do
    let m ← Slots.copyAll src 0 m 0 other.size
    some { a with storage := some m, size := other.size }
  | _, _ => if other.size = 0 then some { a with size := 0 } else none

/-- `Array(const Array& other)` -/
def copy (sizeofT : ℕ) (other : ArrayData T) : Option (ArrayData T) := do
  let a ← reserve sizeofT null other.capacity
  a.copyItems other

/-- `clear` -/
def clear (a : ArrayData T) : Option (ArrayData T) :=
  match a.storage with
  | none => some a
  | some m => do
    let m ← m.destroyAll 0 a.size
    some { a with storage := some m, size := 0 }

/-- `operator=` -/
def assign (sizeofT : ℕ) (a other : ArrayData T) : Option (ArrayData T) := do
  let a ← a.clear
  let a ← a.reserve sizeofT other.capacity
  a.copyItems other

/-- `~Array`: how many objects were constructed and how many were destroyed -/
def destruct (a : ArrayData T) : Option (ℕ × ℕ) :=
  match a.storage with
  | none => some (0, 0)
  | some m => do
    let m ← m.destroyAll 0 a.size
    some (m.constructed, m.destroyed)

/-- `resize` -/
def resize (sizeofT : ℕ) (a : ArrayData T) (size : ℕ) (value : T) : Option (ArrayData T) :=
  if size < a.size then
    match a.storage with
    | none => none
    | some m => do
      let m ← m.destroyAll size (a.size - size)
      some { a with storage := some m, size }
  else do
    let a ← a.reserve sizeofT size
    match a.storage with
    | none => if size = a.size then some a else none
    | some m => do
      let m ← m.fillAll a.size value (size - a.size)
      some { a with storage := some m, size }

/-- `append` of an element -/
def append (sizeofT : ℕ) (a : ArrayData T) (value : T) : Option (ArrayData T) := do
  let a ← a.reserve sizeofT ((a.size + 1) % 2 ^ 64)
  let m ← a.storage
  let m ← m.construct a.size value
  some { a with storage := some m, size := a.size + 1 }

/-- `append` of an array -/
def appendArray (sizeofT : ℕ) (a values : ArrayData T) : Option (ArrayData T) := do
  let a ← a.reserve sizeofT ((a.size + values.size) % 2 ^ 64)
  match a.storage, values.storage with
  | some m, some src => do
    let m ← Slots.copyAll src 0 m a.size values.size
    some { a with storage := some m, size := a.size + values.size }
  | _, _ => if values.size = 0 then some a else none

/-- `append` of the elements from a pointer on -/
def appendRange (sizeofT : ℕ) (a : ArrayData T) (values : List T) : Option (ArrayData T) := do
  let a ← a.reserve sizeofT ((a.size + values.length) % 2 ^ 64)
  match a.storage with
  | some m => do
    let m ← m.constructAll a.size values
    some { a with storage := some m, size := a.size + values.length }
  | none => if values = [] then some a else none

/-- `remove(const Iterator& it)`: elements move up to the position, and the last one is destroyed. -/
def removeAt (a : ArrayData T) (pos : ℕ) : Option (ArrayData T) :=
  match a.storage with
  | none => none
  | some m => do
    let count := a.size - 1 - pos
    let m ← m.shift pos count
    let m ← m.destroy (pos + count)
    some { a with storage := some m, size := a.size - 1 }

/-- `remove(usize index)` -/
def remove (a : ArrayData T) (index : ℕ) : Option (ArrayData T) :=
  if index < a.size then a.removeAt index else some a

/-- `removeFront` -/
def removeFront (a : ArrayData T) : Option (ArrayData T) := a.removeAt 0

/-- `removeBack` -/
def removeBack (a : ArrayData T) : Option (ArrayData T) := a.removeAt (a.size - 1)

/-! ## Programs -/

/-- Operations of a program, which knows its arrays by numbers -/
inductive Op (T : Type)
  | create (a : ℕ)
  | createCapacity (a capacity : ℕ)
  | createCopy (a other : ℕ)
  | assign (a other : ℕ)
  | reserve (a size : ℕ)
  | resize (a size : ℕ) (value : T)
  | append (a : ℕ) (value : T)
  | appendArray (a values : ℕ)
  | appendRange (a : ℕ) (values : List T)
  | remove (a index : ℕ)
  | removeAt (a pos : ℕ)
  | removeFront (a : ℕ)
  | removeBack (a : ℕ)
  | clear (a : ℕ)
  | swap (a other : ℕ)
  | destroy (a : ℕ)

/-- The arrays of a program -/
abbrev State (T : Type) := ℕ → Option (ArrayData T)

/-- An array is replaced by what an operation makes of it. -/
def State.change (s : State T) (a : ℕ) (f : ArrayData T → Option (ArrayData T)) :
    Option (State T) := do
  let x ← s a
  let x ← f x
  some (Function.update s a (some x))

/-- One operation -/
def exec (sizeofT : ℕ) (s : State T) : Op T → Option (State T)
  | .create a => some (Function.update s a (some null))
  | .createCapacity a capacity => some (Function.update s a (some (ofCapacity capacity)))
  | .createCopy a other => do
    let other ← s other
    let x ← copy sizeofT other
    some (Function.update s a (some x))
  | .assign a other => (s other).bind fun other => s.change a fun x => x.assign sizeofT other
  | .reserve a size => s.change a fun x => x.reserve sizeofT size
  | .resize a size value => s.change a fun x => x.resize sizeofT size value
  | .append a value => s.change a fun x => x.append sizeofT value
  | .appendArray a values =>
    (s values).bind fun values => s.change a fun x => x.appendArray sizeofT values
  | .appendRange a values => s.change a fun x => x.appendRange sizeofT values
  | .remove a index => s.change a fun x => x.remove index
  | .removeAt a pos => s.change a fun x => x.removeAt pos
  | .removeFront a => s.change a removeFront
  | .removeBack a => s.change a removeBack
  | .clear a => s.change a clear
  | .swap a other => do
    let x ← s a
    let y ← s other
    some (Function.update (Function.update s a (some y)) other (some x))
  | .destroy a => do
    let x ← s a
    let _ ← x.destruct
    some (Function.update s a none)

end ArrayData

end Nstd
