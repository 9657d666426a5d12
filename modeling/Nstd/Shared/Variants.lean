import Nstd.Core.RefHeap
import Nstd.Document.Variant

/-!
# `Variant` and its blocks

Null and scalars are in the variant itself; maps, lists, arrays and strings are in blocks that
variants share until one of them is written to.

* `Cell` — a variant: what `data` points to.
* `Data` — what is in a block; maps, lists and arrays hold variants in turn.
* `copy`, `clear`, `assign`, `assignScalar`, `assignData`, `detach`, `swap` — the functions.
* `Op` — what a program does with one variable, which may be to go into the container that it holds
  and do something there.
* `Source` — what is read meanwhile: another variable, or an item of a container that is being edited.
* `State`, `step` — several variables.
-/

namespace Nstd

/-- A position in a block -/
structure Place where
  block : ℕ
  index : ℕ

namespace Variant

namespace Sharing

variable {D : Type}

/-- `Variant::Type` -/
inductive VType
  | nullType
  | boolType
  | doubleType
  | intType
  | uintType
  | int64Type
  | uint64Type
  | mapType
  | listType
  | arrayType
  | stringType
  deriving DecidableEq

/-- What a variant may hold without a block, other than null -/
inductive Scalar (D : Type)
  | bool (b : Bool)
  | double (d : D)
  | int (n : Int32)
  | uint (n : UInt32)
  | int64 (n : Int64)
  | uint64 (n : UInt64)

def Scalar.type : Scalar D → VType
  | .bool _ => .boolType
  | .double _ => .doubleType
  | .int _ => .intType
  | .uint _ => .uintType
  | .int64 _ => .int64Type
  | .uint64 _ => .uint64Type

def Scalar.value : Scalar D → Variant D
  | .bool b => .bool b
  | .double d => .double d
  | .int n => .int n
  | .uint n => .uint n
  | .int64 n => .int64 n
  | .uint64 n => .uint64 n

/-- A variant: `data` points to `nullData`, to `_data` or to a block. -/
inductive Cell (D : Type)
  | null
  | scalar (s : Scalar D)
  | block (data : ℕ)

/-- The `_capacity` of an array that is in a variant: `reserve` leaves 0, or what `|= 0x03` leaves. -/
structure Capacity where
  val : ℕ
  full : val = 0 ∨ val % 4 = 3

lemma or_three_mod (n : ℕ) : (n ||| 3) % 4 = 3 := by
  have hor : (n ||| 3) % 2 ^ 2 = n % 2 ^ 2 ||| 3 % 2 ^ 2 := Nat.or_mod_two_pow
  have hall : ∀ r < 4, r ||| 3 % 2 ^ 2 = 3 := by decide
  exact hor.trans (hall _ (Nat.mod_lt n (by decide)))

/-- `Array()` -/
def Capacity.zero : Capacity := ⟨0, .inl rfl⟩

/-- `reserve` -/
def Capacity.reserve (size : ℕ) (c : Capacity) : Capacity :=
  if size > c.val then ⟨size ||| 3, .inr (or_three_mod size)⟩ else c

/-- What is behind the type and the count of a block -/
inductive Data (D : Type)
  | map (m : List (List UInt8 × Cell D))
  | list (l : List (Cell D))
  | array (capacity : Capacity) (a : List (Cell D))
  | string (s : List UInt8)

def Data.type : Data D → VType
  | .map _ => .mapType
  | .list _ => .listType
  | .array _ _ => .arrayType
  | .string _ => .stringType

/-- The variants in a block -/
def Data.cells : Data D → List (Cell D)
  | .map m => m.map Prod.snd
  | .list l => l
  | .array _ a => a
  | .string _ => []

/-- `capacity` of an array -/
def Data.capacity : Data D → Capacity
  | .array capacity _ => capacity
  | _ => .zero

/-- An array that is written over keeps its room. -/
def Data.over (old : Data D) : Data D → Data D
  | .array capacity a => .array (old.capacity.reserve capacity.val) a
  | content => content

/-- Whether `append` makes an array move its elements to another block -/
def Data.isFull : Data D → Bool
  | .array capacity a => a.length + 1 > capacity.val
  | _ => false

/-- The block that a variant points to -/
def Cell.pointers : Cell D → List ℕ
  | .block data => [data]
  | _ => []

/-- The value of a variant if blocks have values -/
def Cell.value (f : ℕ → Variant D) : Cell D → Variant D
  | .null => .null
  | .scalar s => s.value
  | .block data => f data

/-- The value of what is in a block -/
def Data.value (f : ℕ → Variant D) : Data D → Variant D
  | .map m => .map (m.map fun e => (e.1, e.2.value f))
  | .list l => .list (l.map (Cell.value f))
  | .array _ a => .array (a.map (Cell.value f))
  | .string s => .string s

instance : Inhabited (Variant D) := ⟨.null⟩

instance : Content (Data D) (Variant D) where
  pointers c := c.cells.flatMap Cell.pointers
  value c f := c.value f

/-! ## The functions -/

/-- `data->type` -/
def getType (h : Heap (Data D)) : Cell D → Option VType
  | .null => some .nullType
  | .scalar s => some s.type
  | .block data => (h.get? data).map fun b => b.content.type

/-- The block that `data` points to -/
def getBlock : Cell D → Option ℕ
  | .block data => some data
  | _ => none

/-- `data->ref`, which is 0 without a block -/
def getRef (h : Heap (Data D)) : Cell D → ℕ
  | .block data => h.ref data
  | _ => 0

/-- `Variant(const Variant&)` -/
def copy (h : Heap (Data D)) : Cell D → Option (Heap (Data D) × Cell D)
  | .block data => do
    let h ← h.increment data
    some (h, .block data)
  | other => some (h, other)

/-- `Variant(const Variant&)` for each one in a list -/
def copyAll (h : Heap (Data D)) : List (Cell D) → Option (Heap (Data D) × List (Cell D))
  | [] => some (h, [])
  | other :: others => do
    let (h, this) ← copy h other
    let (h, rest) ← copyAll h others
    some (h, this :: rest)

/-- The copy constructors of `HashMap`, `List`, `Array` and `String` -/
def copyData (h : Heap (Data D)) : Data D → Option (Heap (Data D) × Data D)
  | .map m => do
    let (h, cells) ← copyAll h (m.map Prod.snd)
    some (h, .map ((m.map Prod.fst).zip cells))
  | .list l => do
    let (h, cells) ← copyAll h l
    some (h, .list cells)
  | .array capacity a => do
    let (h, cells) ← copyAll h a
    some (h, .array (Capacity.zero.reserve capacity.val) cells)
  | .string s => some (h, .string s)

/-- `clear`; the destructors of containers clear the variants in them. -/
def clear (h : Heap (Data D)) : Cell D → Option (Heap (Data D) × Cell D)
  | .block data => do
    let h ← h.release [data]
    some (h, .null)
  | _ => some (h, .null)

/-- `operator=(const Variant&)` -/
def assign (h : Heap (Data D)) (this : Cell D) : Cell D → Option (Heap (Data D) × Cell D)
  | .block data => do
    let h ← h.increment data
    let (h, _) ← clear h this
    some (h, .block data)
  | other => do
    let (h, _) ← clear h this
    some (h, other)

/-- `operator=` for a `bool`, a `double`, an `int`, a `uint`, an `int64` or a `uint64` -/
def assignScalar (h : Heap (Data D)) (this : Cell D) (other : Scalar D) :
    Option (Heap (Data D) × Cell D) := do
  let type ← getType h this
  if type ≠ other.type then
    let (h, _) ← clear h this
    some (h, .scalar other)
  else some (h, .scalar other)

/-- Does something to what is in a block.  Meanwhile the block is not in the heap: nothing but the
    reference that the program has got leads to it. -/
def edit (h : Heap (Data D)) (data : ℕ)
    (f : Heap (Data D) → Data D → Option (Heap (Data D) × Data D)) : Option (Heap (Data D)) := do
  let b ← h.get? data
  let (h, content) ← f (h.write data none) b.content
  some (h.write data (some { b with content }))

/-- `operator=` of `HashMap`, `List`, `Array` and `String` -/
def overwrite (other : Data D) (h : Heap (Data D)) (content : Data D) :
    Option (Heap (Data D) × Data D) := do
  let h ← h.release (Content.pointers content)
  let (h, copied) ← copyData h other
  some (h, content.over copied)

/-- `operator=` for a map, a list, an array or a string -/
def assignData (h : Heap (Data D)) (this : Cell D) (other : Data D) :
    Option (Heap (Data D) × Cell D) := do
  let type ← getType h this
  if type ≠ other.type ∨ getRef h this > 1 then
    let (h, _) ← clear h this
    let (h, content) ← copyData h other
    let (h, data) := h.new content
    some (h, .block data)
  else
    let data ← getBlock this
    let h ← edit h data (overwrite other)
    some (h, this)

/-- `toMap`, `toList`, `toArray` and `toString` for writing: `source` is what the function of that
    name for reading returns, and the result is the block that the reference is to. -/
def detach (h : Heap (Data D)) (this : Cell D) (source : Data D) :
    Option (Heap (Data D) × ℕ) := do
  let type ← getType h this
  if type ≠ source.type ∨ getRef h this > 1 then
    let (h, content) ← copyData h source
    let (h, newData) := h.new content
    let (h, _) ← clear h this
    some (h, newData)
  else
    let data ← getBlock this
    some (h, data)

/-- The containers that a variant may hold -/
inductive Container
  | map
  | list
  | array

/-- A container with nothing in it -/
def Container.empty : Container → Data D
  | .map => .map []
  | .list => .list []
  | .array => .array .zero []

/-- `toMap() const`, `toList() const` and `toArray() const` -/
def constContainer (k : Container) (h : Heap (Data D)) (this : Cell D) : Data D :=
  match (getBlock this).bind h.get? with
  | some b => if b.content.type = (k.empty : Data D).type then b.content else k.empty
  | none => k.empty

/-- `toString() const` -/
def constToString [DoubleText D] (h : Heap (Data D)) : Cell D → List UInt8
  | .null => []
  | .scalar s => s.value.toString
  | .block data =>
    match h.get? data with
    | some ⟨_, .string s⟩ => s
    | _ => []

/-- `toMap() const` -/
def constToMap (h : Heap (Data D)) (this : Cell D) : Data D := constContainer .map h this

/-- `toList() const` -/
def constToList (h : Heap (Data D)) (this : Cell D) : Data D := constContainer .list h this

/-- `toArray() const` -/
def constToArray (h : Heap (Data D)) (this : Cell D) : Data D := constContainer .array h this

/-- `toMap()` -/
def toMap (h : Heap (Data D)) (this : Cell D) : Option (Heap (Data D) × ℕ) :=
  detach h this (constToMap h this)

/-- `toList()` -/
def toList (h : Heap (Data D)) (this : Cell D) : Option (Heap (Data D) × ℕ) :=
  detach h this (constToList h this)

/-- `toArray()` -/
def toArray (h : Heap (Data D)) (this : Cell D) : Option (Heap (Data D) × ℕ) :=
  detach h this (constToArray h this)

/-- `toString()` -/
def toString [DoubleText D] (h : Heap (Data D)) (this : Cell D) : Option (Heap (Data D) × ℕ) :=
  detach h this (.string (constToString h this))

/-- `toMap()`, `toList()` or `toArray()` -/
def toContainer : Container → Heap (Data D) → Cell D → Option (Heap (Data D) × ℕ)
  | .map => toMap
  | .list => toList
  | .array => toArray

/-- `swap` of two variants -/
def swap (h : Heap (Data D)) (this other : Cell D) :
    Option (Heap (Data D) × Cell D × Cell D) := do
  let (h, tmp) ← copy h other
  let (h, other) ← assign h other this
  let (h, this) ← assign h this tmp
  let (h, _) ← clear h tmp
  some (h, this, other)

/-- `swap` of a variant with itself, where `other = *this` does nothing -/
def swapSelf (h : Heap (Data D)) (this : Cell D) : Option (Heap (Data D) × Cell D) := do
  let (h, tmp) ← copy h this
  let (h, this) ← assign h this tmp
  let (h, _) ← clear h tmp
  some (h, this)

/-! ## What is done to containers -/

/-- A variant is put in at a position; that of an array is its end, that of a map has a key. -/
def Data.insert (i : ℕ) (key : List UInt8) (value : Cell D) : Data D → Data D
  | .map m => .map (m.take i ++ (key, value) :: m.drop i)
  | .list l => .list (l.take i ++ value :: l.drop i)
  | .array capacity a => .array (capacity.reserve (a.length + 1)) (a ++ [value])
  | .string s => .string s

/-- The variant at a position goes. -/
def Data.erase (i : ℕ) : Data D → Data D
  | .map m => .map (m.eraseIdx i)
  | .list l => .list (l.eraseIdx i)
  | .array capacity a => .array capacity (a.eraseIdx i)
  | .string s => .string s

/-- Another variant is at a position. -/
def Data.set (i : ℕ) (value : Cell D) : Data D → Data D
  | .map m => .map (m.modify i fun e => (e.1, value))
  | .list l => .list (l.set i value)
  | .array capacity a => .array capacity (a.set i value)
  | .string s => .string s

/-- The position of a key in a map -/
def Data.find (key : List UInt8) : Data D → Option ℕ
  | .map m => m.findIdx? fun e => e.1 = key
  | _ => none

/-- Something is done to a string. -/
def Data.mapString (f : List UInt8 → List UInt8) : Data D → Data D
  | .string s => .string (f s)
  | content => content

/-- Does something to the variant at a position. -/
def editAt (i : ℕ) (f : Heap (Data D) → Cell D → Option (Heap (Data D) × Cell D))
    (h : Heap (Data D)) (content : Data D) : Option (Heap (Data D) × Data D) :=
  match content.cells[i]? with
  | none => some (h, content)
  | some this => do
    let (h, this) ← f h this
    some (h, content.set i this)

/-- `remove` -/
def remove (i : ℕ) (h : Heap (Data D)) (content : Data D) : Option (Heap (Data D) × Data D) :=
  match content.cells[i]? with
  | none => some (h, content)
  | some this => do
    let (h, _) ← clear h this
    some (h, content.erase i)

/-! ## What is read -/

/-- The variant at a place -/
def readAt (h : Heap (Data D)) (p : Place) : Option (Cell D) := do
  let b ← h.get? p.block
  b.content.cells[p.index]?

/-- `operator=(const Variant& other)` for an `other` in a list, an array or a map: it is read once more
    when this variant was cleared. -/
def assignFrom (h : Heap (Data D)) (this : Cell D) (other : Place) :
    Option (Heap (Data D) × Cell D) := do
  match ← readAt h other with
  | .block data => do
    let h ← h.increment data
    let (h, _) ← clear h this
    let data ← readAt h other
    some (h, data)
  | _ => do
    let (h, _) ← clear h this
    let data ← readAt h other
    some (h, data)

/-- A variant to begin with -/
inductive Root
  /-- another variable -/
  | var (y : ℕ)
  /-- the variant that is assigned to -/
  | this
  /-- an item of the container that is being edited, or of one that is `up` containers further out -/
  | item (up i : ℕ)
  deriving DecidableEq

/-- A variant to read from: a root, or what is at certain positions in the containers in it -/
structure Source where
  root : Root
  path : List ℕ

/-- The variant at some positions -/
def follow (h : Heap (Data D)) : List ℕ → Cell D → Option (Cell D)
  | [], c => some c
  | i :: path, c => do
    let data ← getBlock c
    let b ← h.get? data
    let c ← b.content.cells[i]?
    follow h path c

/-- The place of the variant at some positions, if it is not the variant itself -/
def place (h : Heap (Data D)) : List ℕ → Cell D → Option Place
  | [], _ => none
  | i :: path, c => do
    let data ← getBlock c
    let b ← h.get? data
    let c ← b.content.cells[i]?
    if path = [] then some ⟨data, i⟩ else place h path c

/-- The variant that is read, if it is there; `others` are the roots that are not written to. -/
def Source.find (src : Source) (others : Root → Option (Cell D)) (h : Heap (Data D)) : Option (Cell D) :=
  (others src.root).bind (follow h src.path)

/-- The roots while a container is edited: its items have come in, except for the one written to. -/
def enter (others : Root → Option (Cell D)) (content : Data D) (i : Option ℕ) :
    Root → Option (Cell D)
  | .var y => others (.var y)
  | .this => none
  | .item 0 j => if some j = i then none else content.cells[j]?
  | .item (up + 1) j => others (.item up j)

/-- The same variant when item `i` is written to -/
def Source.seenFrom (src : Source) (i : ℕ) : Source :=
  if src.root = .item 0 i then { src with root := .this } else src

/-- Whether it is an element of the container that is edited -/
def Source.isElement : Source → Bool
  | ⟨.item 0 _, []⟩ => true
  | _ => false

/-- `operator=(const Variant&)`, also for the variant itself and for what is inside it -/
def assignSource (others : Root → Option (Cell D)) (src : Source) (h : Heap (Data D))
    (this : Cell D) : Option (Heap (Data D) × Cell D) :=
  if src.root = .this then
    match place h src.path this with
    | none => some (h, this)
    | some other => assignFrom h this other
  else
    match src.find others h with
    | none => some (h, this)
    | some other => assign h this other

/-- `insert`; a map that has the key keeps its entry, which gets the value if `overwrite` is set.  An
    array that is full moves its elements away before it reads `src`. -/
def insert (i : ℕ) (key : List UInt8) (src : Source) (overwrite : Bool)
    (others : Root → Option (Cell D)) (h : Heap (Data D)) (content : Data D) :
    Option (Heap (Data D) × Data D) :=
  match content.find key with
  | some j =>
    if overwrite then editAt j (assignSource (enter others content (some j)) (src.seenFrom j)) h content
    else some (h, content)
  | none =>
    match src.find (enter others content none) h with
    | none => some (h, content)
    | some value =>
      if src.isElement ∧ content.isFull then none
      else do
        let (h, value) ← copy h value
        some (h, content.insert i key value)

/-! ## Variables -/

/-- What a program does with one variable, or with a variant in the container that it holds.
    A variant is not copied while a reference into it is in use, and a container is not assigned what is
    stored in it. -/
inductive Op (D : Type)
  | clear
  | assign (other : Source)
  | assignScalar (other : Scalar D)
  | assignString (other : List UInt8)
  /-- the container that another variant holds is assigned -/
  | assignContainer (k : Container) (other : Source)
  /-- `toMap()`, `toList()`, `toArray()` -/
  | access (k : Container)
  | insert (k : Container) (i : ℕ) (key : List UInt8) (other : Source)
      (overwrite : Bool)
  | remove (k : Container) (i : ℕ)
  /-- `clear` of the container -/
  | removeAll (k : Container)
  /-- something is done to the variant at a position -/
  | within (k : Container) (i : ℕ) (op : Op D)
  /-- `toString()`, and something is done to the string -/
  | toString (f : List UInt8 → List UInt8)

/-- What an operation does to a variant; `others` are the roots that it may read from. -/
def Op.run [DoubleText D] : Op D → (Root → Option (Cell D)) → Heap (Data D) → Cell D →
    Option (Heap (Data D) × Cell D)
  | .clear, _, h, this => Sharing.clear h this
  | .assign src, others, h, this => assignSource others src h this
  | .assignScalar other, _, h, this => Sharing.assignScalar h this other
  | .assignString other, _, h, this => assignData h this (.string other)
  | .assignContainer k src, others, h, this =>
    match src.find others h with
    | none => some (h, this)
    | some other => assignData h this (constContainer k h other)
  | .access k, _, h, this => do
    let (h, data) ← toContainer k h this
    some (h, .block data)
  | .insert k i key src overwrite, others, h, this => do
    let (h, data) ← toContainer k h this
    let h ← edit h data (Sharing.insert i key src overwrite others)
    some (h, .block data)
  | .remove k i, _, h, this => do
    let (h, data) ← toContainer k h this
    let h ← edit h data (Sharing.remove i)
    some (h, .block data)
  | .removeAll k, _, h, this => do
    let (h, data) ← toContainer k h this
    let h ← edit h data (overwrite k.empty)
    some (h, .block data)
  | .within k i op, others, h, this => do
    let (h, data) ← toContainer k h this
    let h ← edit h data fun h content =>
      editAt i (op.run (enter others content (some i))) h content
    some (h, .block data)
  | .toString f, _, h, this => do
    let (h, data) ← Sharing.toString h this
    let h ← edit h data fun h content => some (h, content.mapString f)
    some (h, .block data)

/-- Variables, and the blocks that they point to -/
structure State (D : Type) where
  heap : Heap (Data D)
  vars : List (Cell D)

/-- Variables behind the default constructor -/
def State.initial (n : ℕ) : State D := ⟨.empty, List.replicate n .null⟩

/-- The variables other than one of them.  What is in that one is read as an item of it. -/
def State.others (s : State D) (x : ℕ) : Root → Option (Cell D)
  | .var y => if y = x then none else s.vars[y]?
  | _ => none

/-- What a program does next.  The other constructors leave what the assignment to a new variable
    leaves. -/
inductive Move (D : Type)
  | op (x : ℕ) (op : Op D)
  /-- a variable is destroyed, and constructed anew as a copy of another variant -/
  | copy (x : ℕ) (other : Source)
  | swap (x y : ℕ)

/-- The state after a move, `none` if a block was used that is gone; a move with variables that are
    not there does nothing. -/
def step [DoubleText D] (s : State D) : Move D → Option (State D)
  | .op x op =>
    match s.vars[x]? with
    | none => some s
    | some this => do
      let (heap, this) ← op.run (s.others x) s.heap this
      some ⟨heap, s.vars.set x this⟩
  | .copy x src =>
    match s.vars[x]?, src.find (s.others x) s.heap with
    | some this, some other => do
      let (heap, _) ← clear s.heap this
      let (heap, this) ← copy heap other
      some ⟨heap, s.vars.set x this⟩
    | _, _ => some s
  | .swap x y =>
    match s.vars[x]?, s.vars[y]? with
    | some this, some other =>
      if x = y then do
        let (heap, this) ← swapSelf s.heap this
        some ⟨heap, s.vars.set x this⟩
      else do
        let (heap, this, other) ← swap s.heap this other
        some ⟨heap, (s.vars.set x this).set y other⟩
    | _, _ => some s

end Sharing

end Variant

end Nstd
