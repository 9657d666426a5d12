import Mathlib.Algebra.Ring.Nat
import Mathlib.Tactic.Lemma
import Nstd.Core.Chain
import Nstd.Core.ItemBlocks

/-!
# `HashMap`, `HashSet` and `PoolMap`

The three are one container: items that are linked in the order of insertion and also hang in the
bucket of their key, each knowing the address of the pointer to it.

* `find`, `insertWith`, `unlink`, `clear`, `swap` — what `HashMap.hpp`, `HashSet.hpp` and
  `PoolMap.hpp` have in common.
* `HashMap.insert`, `HashSet.insert`, `PoolMap.insert` — where they differ: how an item is taken, what
  its value is, and what happens to the value of an item that is there already.
* `appendAll`, `removeAll` — loops over another container.
* `Op`, `exec` — one operation of a program with many containers of one `Kind`.

All objects share one memory.  It is given field by field, each field a function of the address of
the item, and what an `Item**` points to is a function of that address, `none` being a null pointer.
Every function that may follow a null pointer, leave a bucket table or outlive its fuel is partial,
`none` being undefined behaviour.
-/

namespace Nstd.HashTable

/-- `Item**`: an entry of a bucket table, or `nextCell` of an item -/
inductive Cell
  | bucket (data i : ℕ)
  | nextCell (item : Addr)
  deriving DecidableEq

/-- The fields of an object beside its sentinel.  `_end` always holds `&endItem`, and a chain of
    blocks is the list of them. -/
structure Object where
  begin : Addr
  size : ℕ
  capacity : ℕ
  data : Option ℕ
  freeItem : Option Addr
  blocks : List ℕ
  deriving DecidableEq

/-- All objects, and the memory they use.  There are `maps` objects, `tables` bucket tables with
    `cells` entries each, and `blocks` blocks. -/
structure State (T V : Type) where
  key : Addr → T
  value : Addr → V
  cell : Addr → Cell
  prev : Addr → Option Addr
  next : Addr → Option Addr
  pointer : Cell → Option Addr
  map : ℕ → Object
  cells : ℕ → ℕ
  maps : ℕ
  tables : ℕ
  blocks : ℕ

variable {T V : Type}

namespace State

/-- No object and no memory in use -/
def empty [Inhabited T] [Inhabited V] : State T V where
  key _ := default
  value _ := default
  cell _ := .bucket 0 0
  prev _ := none
  next _ := none
  pointer _ := none
  map _ := ⟨.slot 0 0, 0, 0, none, none, []⟩
  cells _ := 0
  maps := 0
  tables := 0
  blocks := 0

/-- Change the fields of an object. -/
def setMap (s : State T V) (this : ℕ) (f : Object → Object) : State T V :=
  { s with map := Function.update s.map this (f (s.map this)) }

/-- There is such a cell. -/
def Inside (s : State T V) : Cell → Prop
  | .bucket data i => i < s.cells data
  | .nextCell _ => True

instance (s : State T V) (c : Cell) : Decidable (s.Inside c) := by
  cases c <;> unfold Inside <;> infer_instance

/-- `*cell` -/
def read (s : State T V) (c : Cell) : Option (Option Addr) :=
  if s.Inside c then some (s.pointer c) else none

/-- `*cell = p` -/
def write (s : State T V) (c : Cell) (p : Option Addr) : Option (State T V) :=
  if s.Inside c then some { s with pointer := Function.update s.pointer c p } else none

/-! ## Objects -/

/-- The constructors; `HashMap()` is this with a capacity of 500. -/
def create (s : State T V) (capacity : ℕ) : State T V :=
  { s with
    prev := Function.update s.prev (.endItem s.maps) none
    next := Function.update s.next (.endItem s.maps) none
    map := Function.update s.map s.maps
      ⟨.endItem s.maps, 0, capacity ||| (if capacity = 0 then 1 else 0), none, none, []⟩
    maps := s.maps + 1 }

/-- One half of `swap`: `this` takes over the fields `other` and the items up to `last`. -/
def take (s : State T V) (this : ℕ) (other : Object) (last : Option Addr) : State T V :=
  let s := { s with prev := Function.update s.prev (.endItem this) last }
  match last with
  | some last =>
    { s with next := Function.update s.next last (some (.endItem this)) }.setMap this
      fun _ => other
  | none => s.setMap this fun _ => { other with begin := .endItem this }

/-- `swap` -/
def swap (s : State T V) (this other : ℕ) : State T V :=
  let tmp := s.map this
  let tmpLast := s.prev (.endItem this)
  let s := s.take this (s.map other) (s.prev (.endItem other))
  s.take other tmp tmpLast

/-! ## Looking for a key -/

section Find

variable [BEq T] (hash : T → ℕ)

/-- The loop of `find`; the inner `none` is the null pointer at the end. -/
def findFrom (s : State T V) (key : T) : ℕ → Option Addr → Option (Option Addr)
  | _, none => some none
  | 0, some _ => none
  | fuel + 1, some item =>
    if s.key item == key then some (some item)
    else findFrom s key fuel (s.pointer (.nextCell item))

/-- `find` -/
def find (s : State T V) (this : ℕ) (key : T) : Option Addr :=
  match (s.map this).data with
  | none => some (.endItem this)
  | some data => do
    let item ← s.read (.bucket data (hash key % (s.map this).capacity))
    let item ← findFrom s key (s.map this).size item
    some (item.getD (.endItem this))

end Find

/-! ## Inserting -/

/-- The number of entries that fit in `sizeof(Item*) * capacity` bytes, the product being one of
    64-bit numbers -/
def tableCells (capacity : ℕ) : ℕ := 8 * capacity % 2 ^ 64 / 8

/-- `data = (Item**)new char[sizeof(Item*) * capacity]` where there is no table yet, filled with
    zeros -/
def makeTable (s : State T V) (this : ℕ) : State T V :=
  match (s.map this).data with
  | some _ => s
  | none =>
    { s with
      pointer := fun c => match c with
        | .bucket data i => if data = s.tables then none else s.pointer (.bucket data i)
        | .nextCell item => s.pointer (.nextCell item)
      cells := Function.update s.cells s.tables (tableCells (s.map this).capacity)
      tables := s.tables + 1 }.setMap this fun o => { o with data := some s.tables }

/-- A new block; the items `slots` of it go in front of the free items, one after the other. -/
def addBlock (s : State T V) (this : ℕ) (slots : List Addr) : State T V :=
  let (prev, item) := Linked.thread s.prev (s.map this).freeItem slots
  { s with prev, blocks := s.blocks + 1 }.setMap this fun o =>
    { o with freeItem := item, blocks := s.blocks :: o.blocks }

/-- `new(item) Item(key, value)`, which leaves the other fields alone -/
def construct (s : State T V) (item : Addr) (key : T) (value : V) : State T V :=
  { s with
    key := Function.update s.key item key
    value := Function.update s.value item value }

/-- How `HashMap` and `HashSet` take an item: the first of the free ones, or the first of a new
    block. -/
def newItem (s : State T V) (this : ℕ) (key : T) (value : V) : State T V × Addr :=
  match (s.map this).freeItem with
  | some item =>
    let s := s.setMap this fun o => { o with freeItem := s.prev item }
    (s.construct item key value, item)
  | none =>
    let item := Addr.slot s.blocks 0
    let s := s.addBlock this [.slot s.blocks 1, .slot s.blocks 2, .slot s.blocks 3]
    (s.construct item key value, item)

/-- How `PoolMap` takes an item: from the free ones, where all of a new block are put before. -/
def newPoolItem (s : State T V) (this : ℕ) (key : T) (value : V) : State T V × Addr :=
  let (s, item) := match (s.map this).freeItem with
    | some item => (s, item)
    | none =>
      (s.addBlock this [.slot s.blocks 0, .slot s.blocks 1, .slot s.blocks 2, .slot s.blocks 3],
        .slot s.blocks 3)
  let s := s.construct item key value
  (s.setMap this fun o => { o with freeItem := s.prev item }, item)

/-- Hang an item in the bucket for `hashCode`. -/
def hang (s : State T V) (this : ℕ) (item : Addr) (hashCode : ℕ) : Option (State T V) := do
  let data ← (s.map this).data
  let cell := Cell.bucket data (hashCode % (s.map this).capacity)
  let s := { s with cell := Function.update s.cell item cell }
  let next ← s.read cell
  let s := { s with pointer := Function.update s.pointer (.nextCell item) next }
  let s := match next with
    | some next => { s with cell := Function.update s.cell next (.nextCell item) }
    | none => s
  s.write cell (some item)

/-- Link an item into the list, before `insertPos`. -/
def linkBefore (s : State T V) (this : ℕ) (item insertPos : Addr) : State T V :=
  let prev := s.prev insertPos
  let s := { s with prev := Function.update s.prev item prev }
  let s := match prev with
    | some prev => { s with next := Function.update s.next prev (some item) }
    | none => s.setMap this fun o => { o with begin := item }
  let s := { s with next := Function.update s.next item (some insertPos) }
  let s := { s with prev := Function.update s.prev insertPos (some item) }
  s.setMap this fun o => { o with size := o.size + 1 }

/-- The common text of `insert`.  `found` is what is done to an item that has the key already, `take`
    how a new one is taken. -/
def insertWith [BEq T] (hash : T → ℕ) (found : State T V → Addr → State T V)
    (take : State T V → ℕ → T → V → State T V × Addr) (s : State T V) (this : ℕ) (position : Addr)
    (key : T) (value : V) : Option (State T V × Addr) := do
  let it ← s.find hash this key
  if it ≠ .endItem this then some (found s it, it)
  else do
    let s := s.makeTable this
    let (s, item) := take s this key value
    let s ← s.hang this item (hash key)
    some (s.linkBefore this item position, item)

/-- `*it = value` -/
def assign (s : State T V) (it : Addr) (value : V) : State T V :=
  { s with value := Function.update s.value it value }

/-! ## Removing -/

/-- `item->prev = freeItem; freeItem = item` -/
def release (s : State T V) (this : ℕ) (item : Addr) : State T V :=
  { s with prev := Function.update s.prev item (s.map this).freeItem }.setMap this fun o =>
    { o with freeItem := some item }

/-- `if((*item->cell = item->nextCell)) item->nextCell->cell = item->cell` -/
def unhang (s : State T V) (item : Addr) : Option (State T V) := do
  let s ← s.write (s.cell item) (s.pointer (.nextCell item))
  match s.pointer (.nextCell item) with
  | some next => some { s with cell := Function.update s.cell next (s.cell item) }
  | none => some s

/-- Take an item out of the list. -/
def unchain (s : State T V) (this : ℕ) (item : Addr) : Option (State T V) := do
  let next ← s.next item
  match s.prev item with
  | none =>
    let s := s.setMap this fun o => { o with begin := next }
    some { s with prev := Function.update s.prev next none }
  | some prev =>
    some { s with
      next := Function.update s.next prev (some next)
      prev := Function.update s.prev next (some prev) }

/-- The common text of `HashMap::remove(const Iterator&)` and `PoolMap::remove(const V&)` -/
def unlink (s : State T V) (this : ℕ) (item : Addr) : Option (State T V) := do
  let s ← s.unhang item
  let s ← s.unchain this item
  let s := s.setMap this fun o => { o with size := o.size - 1 }
  some (s.release this item)

/-- `Iterator remove(const Iterator& it)` -/
def remove (s : State T V) (this : ℕ) (it : Addr) : Option (State T V × Addr) := do
  let s ← s.unlink this it
  let next ← s.next it
  some (s, next)

/-- `removeFront` -/
def removeFront (s : State T V) (this : ℕ) : Option (State T V × Addr) :=
  s.remove this (s.map this).begin

/-- `removeBack` -/
def removeBack (s : State T V) (this : ℕ) : Option (State T V × Addr) := do
  let item ← s.prev (.endItem this)
  s.remove this item

/-- `void remove(const T& key)` -/
def removeKey [BEq T] (hash : T → ℕ) (s : State T V) (this : ℕ) (key : T) : Option (State T V) := do
  let it ← s.find hash this key
  if it ≠ .endItem this then s.unlink this it else some s

/-- The loop of `clear` -/
def clearFrom (this : ℕ) : ℕ → State T V → Addr → Option (State T V)
  | 0, _, _ => none
  | fuel + 1, s, i =>
    if i = .endItem this then some s
    else do
      let s ← s.write (s.cell i) none
      let s := s.release this i
      let next ← s.next i
      clearFrom this fuel s next

/-- `clear` -/
def clear (s : State T V) (this : ℕ) : Option (State T V) := do
  let s ← clearFrom this ((s.map this).size + 1) s (s.map this).begin
  let s := s.setMap this fun o => { o with begin := .endItem this }
  let s := { s with prev := Function.update s.prev (.endItem this) none }
  some (s.setMap this fun o => { o with size := 0 })

end State

/-! ## The three containers -/

section Containers

variable [BEq T] (hash : T → ℕ)

open State

/-- `HashMap::insert` -/
def HashMap.insert (s : State T V) (this : ℕ) (position : Addr) (key : T) (value : V)
    (overwrite : Bool) : Option (State T V × Addr) :=
  s.insertWith hash (fun s it => if overwrite then s.assign it value else s) newItem this position
    key value

/-- `HashSet::insert`.  An item of a `HashSet` has no value; `V` is any type with one to fill in. -/
def HashSet.insert [Inhabited V] (s : State T V) (this : ℕ) (position : Addr) (key : T) :
    Option (State T V × Addr) :=
  s.insertWith hash (fun s _ => s) newItem this position key default

/-- `PoolMap::insert` -/
def PoolMap.insert [Inhabited V] (s : State T V) (this : ℕ) (position : Addr) (key : T) :
    Option (State T V × Addr) :=
  s.insertWith hash (fun s _ => s) newPoolItem this position key default

/-- Which container a program uses -/
inductive Kind
  | hashMap
  | hashSet
  | poolMap
  deriving DecidableEq

/-- `insert` of the container; what it has no use for is ignored. -/
def Kind.insert [Inhabited V] : Kind → State T V → ℕ → Addr → T → V → Bool →
    Option (State T V × Addr)
  | .hashMap, s, this, position, key, value, overwrite =>
    HashMap.insert hash s this position key value overwrite
  | .hashSet, s, this, position, key, _, _ => HashSet.insert hash s this position key
  | .poolMap, s, this, position, key, _, _ => PoolMap.insert hash s this position key

/-- The loop of `appendAll`, with `last` at its end -/
def appendFrom [Inhabited V] (kind : Kind) (this : ℕ) (last : Addr) : ℕ → State T V → Addr →
    Option (State T V)
  | 0, _, _ => none
  | fuel + 1, s, i =>
    if i = last then some s
    else do
      let (s, _) ← kind.insert hash s this (.endItem this) (s.key i) (s.value i) true
      let next ← s.next i
      appendFrom kind this last fuel s next

/-- `append(const HashSet&)`, which is also how the items of another container are copied -/
def appendAll [Inhabited V] (kind : Kind) (s : State T V) (this other : ℕ) : Option (State T V) :=
  appendFrom hash kind this (.endItem other) ((s.map other).size + 1) s (s.map other).begin

/-- The loop of `removeAll`, with `last` at its end -/
def removeFrom (this : ℕ) (last : Addr) : ℕ → State T V → Addr → Option (State T V)
  | 0, _, _ => none
  | fuel + 1, s, i =>
    if i = last then some s
    else do
      let s ← s.removeKey hash this (s.key i)
      let next ← s.next i
      removeFrom this last fuel s next

/-- `remove(const HashSet&)` -/
def removeAll (s : State T V) (this other : ℕ) : Option (State T V) :=
  removeFrom hash this (.endItem other) ((s.map other).size + 1) s (s.map other).begin

/-- Operations of a program, which knows its containers by numbers.  `remove(const V&)` of `PoolMap`
    is `remove` without the iterator, and `assign` is `*it = value`. -/
inductive Op (T V : Type)
  | create (capacity : ℕ)
  | insert (this : ℕ) (position : Addr) (key : T) (value : V) (overwrite : Bool)
  | append (this : ℕ) (key : T) (value : V) (overwrite : Bool)
  | prepend (this : ℕ) (key : T) (value : V) (overwrite : Bool)
  | appendAll (this other : ℕ)
  | find (this : ℕ) (key : T)
  | removeKey (this : ℕ) (key : T)
  | removeAll (this other : ℕ)
  | remove (this : ℕ) (it : Addr)
  | removeFront (this : ℕ)
  | removeBack (this : ℕ)
  | clear (this : ℕ)
  | swap (this other : ℕ)
  | assign (this : ℕ) (it : Addr) (value : V)

/-- One operation, and the iterator that it returns -/
def exec [Inhabited V] (kind : Kind) (s : State T V) : Op T V → Option (State T V × Option Addr)
  | .create capacity => some (s.create capacity, none)
  | .insert this position key value overwrite =>
    (kind.insert hash s this position key value overwrite).map fun r => (r.1, some r.2)
  | .append this key value overwrite =>
    (kind.insert hash s this (.endItem this) key value overwrite).map fun r => (r.1, some r.2)
  | .prepend this key value overwrite =>
    (kind.insert hash s this (s.map this).begin key value overwrite).map fun r => (r.1, some r.2)
  | .appendAll this other => (appendAll hash kind s this other).map fun s => (s, none)
  | .find this key => (s.find hash this key).map fun it => (s, some it)
  | .removeKey this key => (s.removeKey hash this key).map fun s => (s, none)
  | .removeAll this other => (removeAll hash s this other).map fun s => (s, none)
  | .remove this it => (s.remove this it).map fun r => (r.1, some r.2)
  | .removeFront this => (s.removeFront this).map fun r => (r.1, some r.2)
  | .removeBack this => (s.removeBack this).map fun r => (r.1, some r.2)
  | .clear this => (s.clear this).map fun s => (s, none)
  | .swap this other => some (s.swap this other, none)
  | .assign _ it value => some (s.assign it value, none)

end Containers

end Nstd.HashTable
