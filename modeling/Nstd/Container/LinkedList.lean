import Nstd.Core.Chain
import Nstd.Core.ItemBlocks

/-!
# `List` and `PoolList`

The two are one container: items that are linked in both directions, a sentinel in the object that
stands for the end, and a chain of free items, which uses the `prev` of the items that it links.

* `insert`, `insertList`, `PoolList.append`, `find`, `unlink`, `clear`, `swap` — what `List.hpp` and
  `PoolList.hpp` do.
* `Op`, `exec` — one operation of a program with many lists.

All objects share one memory.  It is given field by field, each field a function of the address of
the item; the value of an item is `none` where no object is constructed.  Every function that may
follow a null pointer, construct in an object, destroy raw memory or outlive its fuel is partial.
-/

namespace Nstd.LinkedList

/-- The fields of an object beside its sentinel.  `_end` always holds `&endItem`, and a chain of
    blocks is the list of them. -/
structure Object where
  begin : Addr
  size : ℕ
  freeItem : Option Addr
  blocks : List ℕ

/-- All objects, and the memory they use.  There are `lists` objects and `blocks` blocks. -/
structure State (V : Type) where
  value : Addr → Option V
  prev : Addr → Option Addr
  next : Addr → Option Addr
  list : ℕ → Object
  lists : ℕ
  blocks : ℕ

variable {V : Type}

namespace State

/-- No object and no memory in use -/
def empty : State V where
  value _ := none
  prev _ := none
  next _ := none
  list _ := ⟨.slot 0 0, 0, none, []⟩
  lists := 0
  blocks := 0

/-- Change the fields of an object. -/
def setList (s : State V) (this : ℕ) (f : Object → Object) : State V :=
  { s with list := Function.update s.list this (f (s.list this)) }

/-- `new(item) T(value)`, which leaves the links of the item alone -/
def construct (s : State V) (item : Addr) (value : V) : Option (State V) :=
  match s.value item with
  | none => some { s with value := Function.update s.value item (some value) }
  | some _ => none

/-- `~T()` -/
def destroy (s : State V) (item : Addr) : Option (State V) :=
  match s.value item with
  | none => none
  | some _ => some { s with value := Function.update s.value item none }

/-! ## Objects -/

/-- The constructors -/
def create (s : State V) : State V :=
  { s with
    prev := Function.update s.prev (.endItem s.lists) none
    next := Function.update s.next (.endItem s.lists) none
    list := Function.update s.list s.lists ⟨.endItem s.lists, 0, none, []⟩
    lists := s.lists + 1 }

/-- One half of `swap`: `this` takes over the fields `other` and the items up to `last`. -/
def take (s : State V) (this : ℕ) (other : Object) (last : Option Addr) : State V :=
  let s := { s with prev := Function.update s.prev (.endItem this) last }
  match last with
  | some last =>
    { s with next := Function.update s.next last (some (.endItem this)) }.setList this
      fun _ => other
  | none => s.setList this fun _ => { other with begin := .endItem this }

/-- `swap` -/
def swap (s : State V) (this other : ℕ) : State V :=
  let tmp := s.list this
  let tmpLast := s.prev (.endItem this)
  let s := s.take this (s.list other) (s.prev (.endItem other))
  s.take other tmp tmpLast

/-! ## Inserting -/

/-- `allocateFreeItem` of `PoolList`, which `insert` of `List` has in it: the first free item, after a
    new block if there is none, whose items are put before each other.  It stays a free one. -/
def allocateFreeItem (s : State V) (this : ℕ) : State V × Option Addr :=
  match (s.list this).freeItem with
  | some item => (s, some item)
  | none =>
    let (prev, item) := Linked.thread s.prev none (slotsOf s.blocks)
    ({ s with prev, blocks := s.blocks + 1 }.setList this fun o =>
      { o with freeItem := item, blocks := s.blocks :: o.blocks }, item)

/-- The first free item is linked into the list, before `insertPos`. -/
def linkBefore (s : State V) (this : ℕ) (item insertPos : Addr) : State V :=
  let s := s.setList this fun o => { o with freeItem := s.prev item }
  let prev := s.prev insertPos
  let s := { s with prev := Function.update s.prev item prev }
  let s := match prev with
    | some prev => { s with next := Function.update s.next prev (some item) }
    | none => s.setList this fun o => { o with begin := item }
  let s := { s with next := Function.update s.next item (some insertPos) }
  let s := { s with prev := Function.update s.prev insertPos (some item) }
  s.setList this fun o => { o with size := o.size + 1 }

/-- `Iterator insert(const Iterator& position, const T& value)` -/
def insert (s : State V) (this : ℕ) (position : Addr) (value : V) : Option (State V × Addr) := do
  let (s, item) := s.allocateFreeItem this
  let item ← item
  let s ← s.construct item value
  some (s.linkBefore this item position, item)

/-- `prepend` -/
def prepend (s : State V) (this : ℕ) (value : V) : Option (State V × Addr) :=
  s.insert this (s.list this).begin value

/-- `append` -/
def append (s : State V) (this : ℕ) (value : V) : Option (State V × Addr) :=
  s.insert this (.endItem this) value

/-- The loop of `Iterator insert(const Iterator& position, const List& list)` -/
def insertFrom (this : ℕ) (pos last : Addr) : ℕ → State V → Addr → Option (State V)
  | 0, _, _ => none
  | fuel + 1, s, i =>
    if i = last then some s
    else do
      let value ← s.value i
      let (s, _) ← s.insert this pos value
      let next ← s.next i
      insertFrom this pos last fuel s next

/-- `Iterator insert(const Iterator& position, const List& list)` -/
def insertList (s : State V) (this : ℕ) (position : Addr) (list : ℕ) : Option (State V × Addr) :=
  match s.prev (.endItem list) with
  | none => some (s, position)
  | some _ => do
    let first := (s.list list).begin
    let value ← s.value first
    let (s, result) ← s.insert this position value
    let next ← s.next (s.list list).begin
    let s ← insertFrom this position (.endItem list) (s.list list).size s next
    some (s, result)

/-- `void prepend(const List& list)` -/
def prependList (s : State V) (this list : ℕ) : Option (State V × Addr) :=
  s.insertList this (s.list this).begin list

/-- `void append(const List& list)` -/
def appendList (s : State V) (this list : ℕ) : Option (State V × Addr) :=
  s.insertList this (.endItem this) list

/-! ## Looking for a value -/

/-- The loop of `find` -/
def findFrom [BEq V] (s : State V) (value : V) (last : Addr) : ℕ → Addr → Option Addr
  | 0, _ => none
  | fuel + 1, i =>
    if i = last then some last
    else do
      let v ← s.value i
      if v == value then some i
      else do
        let next ← s.next i
        findFrom s value last fuel next

/-- `find` -/
def find [BEq V] (s : State V) (this : ℕ) (value : V) : Option Addr :=
  s.findFrom value (.endItem this) ((s.list this).size + 1) (s.list this).begin

/-! ## Removing -/

/-- `item->prev = freeItem; freeItem = item` -/
def release (s : State V) (this : ℕ) (item : Addr) : State V :=
  { s with prev := Function.update s.prev item (s.list this).freeItem }.setList this fun o =>
    { o with freeItem := some item }

/-- Take an item out of the list. -/
def unchain (s : State V) (this : ℕ) (item : Addr) : Option (State V) := do
  let next ← s.next item
  match s.prev item with
  | none =>
    let s := s.setList this fun o => { o with begin := next }
    some { s with prev := Function.update s.prev next none }
  | some prev =>
    some { s with
      next := Function.update s.next prev (some next)
      prev := Function.update s.prev next (some prev) }

/-- The common text of `List::remove(const Iterator&)` and `PoolList::remove(const T&)` -/
def unlink (s : State V) (this : ℕ) (item : Addr) : Option (State V) := do
  let s ← s.unchain this item
  let s := s.setList this fun o => { o with size := o.size - 1 }
  let s ← s.destroy item
  some (s.release this item)

/-- `Iterator remove(const Iterator& it)` -/
def remove (s : State V) (this : ℕ) (it : Addr) : Option (State V × Addr) := do
  let s ← s.unlink this it
  let next ← s.next it
  some (s, next)

/-- `List::remove(const T& value)` -/
def removeValue [BEq V] (s : State V) (this : ℕ) (value : V) : Option (State V) := do
  let it ← s.find this value
  if it ≠ .endItem this then s.unlink this it else some s

/-- `removeFront` -/
def removeFront (s : State V) (this : ℕ) : Option (State V × Addr) :=
  s.remove this (s.list this).begin

/-- `removeBack` -/
def removeBack (s : State V) (this : ℕ) : Option (State V × Addr) := do
  let item ← s.prev (.endItem this)
  s.remove this item

/-- The loop of `clear` -/
def clearFrom (this : ℕ) : ℕ → State V → Addr → Option (State V)
  | 0, _, _ => none
  | fuel + 1, s, i =>
    if i = .endItem this then some s
    else do
      let s ← s.destroy i
      let s := s.release this i
      let next ← s.next i
      clearFrom this fuel s next

/-- `clear` -/
def clear (s : State V) (this : ℕ) : Option (State V) := do
  let s ← clearFrom this ((s.list this).size + 1) s (s.list this).begin
  let s := s.setList this fun o => { o with begin := .endItem this }
  let s := { s with prev := Function.update s.prev (.endItem this) none }
  some (s.setList this fun o => { o with size := 0 })

end State

/-- `linkFreeItem`: whatever item was constructed, the first free one is linked. -/
def PoolList.linkFreeItem (s : State V) (this : ℕ) : Option (State V × Addr) := do
  let item ← (s.list this).freeItem
  some (s.linkBefore this item (.endItem this), item)

/-- `append` of `PoolList`; the arguments of the constructor stand for the value. -/
def PoolList.append (s : State V) (this : ℕ) (value : V) : Option (State V × Addr) := do
  let (s, item) := s.allocateFreeItem this
  let item ← item
  let s ← s.construct item value
  PoolList.linkFreeItem s this

/-! ## Programs -/

/-- Operations of a program, which knows its lists by numbers.  A `PoolList` has but some of them, and
    `poolAppend`. -/
inductive Op (V : Type)
  | create
  | insert (this : ℕ) (position : Addr) (value : V)
  | prepend (this : ℕ) (value : V)
  | append (this : ℕ) (value : V)
  | poolAppend (this : ℕ) (value : V)
  | insertList (this : ℕ) (position : Addr) (list : ℕ)
  | prependList (this list : ℕ)
  | appendList (this list : ℕ)
  | remove (this : ℕ) (it : Addr)
  | removeValue (this : ℕ) (value : V)
  | removeFront (this : ℕ)
  | removeBack (this : ℕ)
  | clear (this : ℕ)
  | swap (this other : ℕ)

/-- One operation, and the iterator that it returns -/
def exec [BEq V] (s : State V) : Op V → Option (State V × Option Addr)
  | .create => some (s.create, none)
  | .insert this position value => (s.insert this position value).map fun r => (r.1, some r.2)
  | .prepend this value => (s.prepend this value).map fun r => (r.1, some r.2)
  | .append this value => (s.append this value).map fun r => (r.1, some r.2)
  | .poolAppend this value => (PoolList.append s this value).map fun r => (r.1, some r.2)
  | .insertList this position list =>
    (s.insertList this position list).map fun r => (r.1, some r.2)
  | .prependList this list => (s.prependList this list).map fun r => (r.1, some r.2)
  | .appendList this list => (s.appendList this list).map fun r => (r.1, some r.2)
  | .remove this it => (s.remove this it).map fun r => (r.1, some r.2)
  | .removeValue this value => (s.removeValue this value).map fun s => (s, none)
  | .removeFront this => (s.removeFront this).map fun r => (r.1, some r.2)
  | .removeBack this => (s.removeBack this).map fun r => (r.1, some r.2)
  | .clear this => (s.clear this).map fun s => (s, none)
  | .swap this other => some (s.swap this other, none)

end Nstd.LinkedList
