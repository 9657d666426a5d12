import Nstd.Core.BalancedTree
import Mathlib.Logic.Function.Basic

/-!
# The item tree of `Map` and `MultiMap`

`Map.hpp` and `MultiMap.hpp` keep their items in the same structure and share, word for word,
everything that does not compare keys: the item record, allocation from blocks of four, the
rotations, rebalancing, unlinking and clearing.  That common part is modelled here once; the two
containers add their own descent on top.

Pointers are optional addresses and `Item**` is a `Cell`.  An object owns its memory, a function
from addresses to items; its sentinel `endItem` has address `0` and block `b` consists of the four
addresses from `4 * b + 1` on.  Every function that follows a pointer is partial: `none` is the
undefined behaviour of following a null pointer, or a loop that outlives its fuel.  The `ASSERT`s
of the source are compiled away in release builds and are left out.
-/

namespace Nstd

open BalancedTree (Side)

/-- `Item*`. -/
abbrev Ptr := Option ℕ

/-- `&endItem`. -/
abbrev endItem : ℕ := 0

/-- `struct Item`. -/
structure Item (T V : Type) where
  key : T
  value : V
  parent : Ptr
  left : Ptr
  right : Ptr
  height : ℕ
  slope : ℤ
  next : Ptr
  prev : Ptr

/-- `Item**`: the pointer `root`, or the pointer to one child of an item. -/
inductive Cell
  | root
  | child (parent : ℕ) (side : Side)
  deriving DecidableEq, Repr

/-- The fields of a `Map` or `MultiMap` object, with the memory of its items.  `_end` always holds
`&endItem`. -/
structure ItemTree (T V : Type) where
  mem : ℕ → Item T V
  begin : Ptr
  root : Ptr
  size : ℕ
  freeItem : Ptr
  blocks : ℕ

variable {T V : Type}

/-- `Item::left` or `Item::right`. -/
def Item.child (i : Item T V) : Side → Ptr
  | .left => i.left
  | .right => i.right

namespace ItemTree

/-- The default constructor; memory nobody has written to yet reads as default items. -/
def empty [Inhabited T] [Inhabited V] : ItemTree T V where
  mem _ := ⟨default, default, none, none, none, 0, 0, none, none⟩
  begin := some endItem
  root := none
  size := 0
  freeItem := none
  blocks := 0

/-! ## Reading and writing items -/

/-- Change one item. -/
def modify (m : ItemTree T V) (a : ℕ) (f : Item T V → Item T V) : ItemTree T V :=
  { m with mem := Function.update m.mem a (f (m.mem a)) }

def setParent (m : ItemTree T V) (a : ℕ) (p : Ptr) : ItemTree T V :=
  m.modify a fun i => { i with parent := p }

def setChild (m : ItemTree T V) (a : ℕ) (d : Side) (p : Ptr) : ItemTree T V :=
  match d with
  | .left => m.modify a fun i => { i with left := p }
  | .right => m.modify a fun i => { i with right := p }

def setNext (m : ItemTree T V) (a : ℕ) (p : Ptr) : ItemTree T V :=
  m.modify a fun i => { i with next := p }

def setPrev (m : ItemTree T V) (a : ℕ) (p : Ptr) : ItemTree T V :=
  m.modify a fun i => { i with prev := p }

/-- `_begin.item = p`. -/
def setBegin (m : ItemTree T V) (p : Ptr) : ItemTree T V := { m with begin := p }

def setValue (m : ItemTree T V) (a : ℕ) (v : V) : ItemTree T V :=
  m.modify a fun i => { i with value := v }

/-- `*cell`. -/
def read (m : ItemTree T V) : Cell → Ptr
  | .root => m.root
  | .child a d => (m.mem a).child d

/-- `*cell = p`. -/
def write (m : ItemTree T V) (cell : Cell) (p : Ptr) : ItemTree T V :=
  match cell with
  | .root => { m with root := p }
  | .child a d => m.setChild a d p

/-- The cell that `parent ? (parent->left == item ? &parent->left : &parent->right) : &root`
selects. -/
def cellOf (m : ItemTree T V) (item : ℕ) : Cell :=
  match (m.mem item).parent with
  | some parent => if (m.mem parent).left = some item then .child parent .left else .child parent .right
  | none => .root

/-- The height stored behind a pointer, a null pointer having height zero. -/
def heightOf (m : ItemTree T V) : Ptr → ℕ
  | some a => (m.mem a).height
  | none => 0

/-! ## Rebalancing -/

/-- `Item::updateHeightAndSlope`. -/
def updateHeightAndSlope (m : ItemTree T V) (a : ℕ) : ItemTree T V :=
  let leftHeight := m.heightOf (m.mem a).left
  let rightHeight := m.heightOf (m.mem a).right
  m.modify a fun i =>
    { i with
      slope := (leftHeight : ℤ) - rightHeight
      height := (if leftHeight > rightHeight then leftHeight else rightHeight) + 1 }

/-- The pointer assignments of `rotr` and `rotl`, which `result`, the `d`-child of `oldTop`, comes
out of as the top. -/
def relink (d : Side) (m : ItemTree T V) (cell : Cell) (oldTop result : ℕ) : ItemTree T V :=
  let tmp := (m.mem result).child d.flip
  let m := m.setParent result (m.mem oldTop).parent
  let m := m.setChild result d.flip (some oldTop)
  let m := m.setChild oldTop d tmp
  let m := match tmp with
    | some tmp => m.setParent tmp (some oldTop)
    | none => m
  let m := m.setParent oldTop (some result)
  m.write cell (some result)

/-- The common text of `rotr` (`d` is `left`) and `rotl` (`d` is `right`): bring the `d`-child of
`*cell` to the top. -/
def rot (d : Side) (m : ItemTree T V) (cell : Cell) : Option (ItemTree T V) := do
  let oldTop ← m.read cell
  let result ← (m.mem oldTop).child d
  let m := relink d m cell oldTop result
  let m := m.updateHeightAndSlope oldTop
  some (m.updateHeightAndSlope result)

/-- The common text of `shiftr` and `shiftl`: rotate the `d`-child of `*cell` first if it leans
away from side `d`. -/
def shift (d : Side) (m : ItemTree T V) (cell : Cell) : Option (ItemTree T V) := do
  let oldTop ← m.read cell
  let child ← (m.mem oldTop).child d
  let m ← if (m.mem child).slope = d.inward then rot d.flip m (.child oldTop d) else some m
  rot d m cell

/-- `if(oldTop->left->slope == -1) rotl(oldTop->left); rotr(cell)`. -/
def shiftr (m : ItemTree T V) (cell : Cell) : Option (ItemTree T V) := shift .left m cell

/-- `if(oldTop->right->slope == 1) rotr(oldTop->right); rotl(cell)`. -/
def shiftl (m : ItemTree T V) (cell : Cell) : Option (ItemTree T V) := shift .right m cell

/-- `rebal`.  Every caller goes on to read the item it returns, so a null `cell` is undefined
behaviour already here. -/
def rebal (m : ItemTree T V) (item : ℕ) : Option (ItemTree T V × ℕ) :=
  if (m.mem item).slope > 1 then do
    let cell := m.cellOf item
    let m ← m.shiftr cell
    let top ← m.read cell
    some (m, top)
  else if (m.mem item).slope < -1 then do
    let cell := m.cellOf item
    let m ← m.shiftl cell
    let top ← m.read cell
    some (m, top)
  else some (m, item)

/-- The loop after the label `rebalParentUpwards` of `remove`.  The `do`/`while` loop at the end
of `insert` is this loop entered with a parent that is not null. -/
def rebalParentUpwards : ℕ → ItemTree T V → Ptr → Option (ItemTree T V)
  | _, m, none => some m
  | 0, _, some _ => none
  | fuel + 1, m, some parent => do
    let oldHeight := (m.mem parent).height
    let (m, parent) ← (m.updateHeightAndSlope parent).rebal parent
    if oldHeight = (m.mem parent).height then some m
    else rebalParentUpwards fuel m (m.mem parent).parent

/-- The loop after the label `rebalParent` of `remove`; the result is the value of `parent` at
its end.  When a height comes out unchanged the loop goes straight to the item in `cell`. -/
def rebalParent (origParent : Ptr) (cell : Cell) :
    ℕ → ItemTree T V → ℕ → Option (ItemTree T V × Ptr)
  | 0, _, _ => none
  | fuel + 1, m, parent => do
    let oldHeight := (m.mem parent).height
    let (m, parent) ← (m.updateHeightAndSlope parent).rebal parent
    if oldHeight = (m.mem parent).height then do
      let parent ← m.read cell
      let (m, parent) ← (m.updateHeightAndSlope parent).rebal parent
      some (m, (m.mem parent).parent)
    else if (m.mem parent).parent = origParent then some (m, (m.mem parent).parent)
    else do
      let parent ← (m.mem parent).parent
      rebalParent origParent cell fuel m parent

/-! ## Inserting an item -/

/-- A new block of four items, threaded onto the free chain; the last of them becomes its head. -/
def addBlock (m : ItemTree T V) : ItemTree T V :=
  let i := 4 * m.blocks + 1
  let m := m.setPrev i none
  let m := m.setPrev (i + 1) (some i)
  let m := m.setPrev (i + 2) (some (i + 1))
  let m := m.setPrev (i + 3) (some (i + 2))
  { m with freeItem := some (i + 3), blocks := m.blocks + 1 }

/-- The item the next insertion uses: the head of the free chain. -/
def allocItem (m : ItemTree T V) : ItemTree T V × ℕ :=
  match m.freeItem with
  | some item => (m, item)
  | none => (m.addBlock, 4 * m.blocks + 4)

/-- `new(item) Item(parent, key, value)`, which leaves `next` and `prev` alone. -/
def construct (m : ItemTree T V) (item : ℕ) (parent : Ptr) (key : T) (value : V) : ItemTree T V :=
  m.modify item fun i =>
    { i with key := key, value := value, parent := parent, left := none, right := none,
             height := 1, slope := 0 }

/-- Link `item` into the chain of items right before `insertPos`. -/
def linkBefore (m : ItemTree T V) (item insertPos : ℕ) : ItemTree T V :=
  let prev := (m.mem insertPos).prev
  let m := m.setPrev item prev
  let m := match prev with
    | some prev => m.setNext prev (some item)
    | none => m.setBegin (some item)
  let m := m.setNext item (some insertPos)
  m.setPrev insertPos (some item)

/-- A new item in the null cell `cell` below `parent`. -/
def newItem (m : ItemTree T V) (cell : Cell) (parent : Ptr) (key : T) (value : V) : ItemTree T V × ℕ :=
  let (m, item) := m.allocItem
  let m := m.construct item parent key value
  let m := { m with freeItem := (m.mem item).prev }
  let m := m.write cell (some item)
  ({ m with size := m.size + 1 }, item)

/-- `cell == &parent->right ? parent->next : parent`. -/
def insertPos (m : ItemTree T V) (cell : Cell) (parent : ℕ) : Ptr :=
  if cell = .child parent .right then (m.mem parent).next else some parent

/-- The part of the private `insert` that runs once a null cell is reached. -/
def insertLeaf (m : ItemTree T V) (cell : Cell) (parent : Ptr) (key : T) (value : V) :
    Option (ItemTree T V × ℕ) :=
  let (m, item) := m.newItem cell parent key value
  match parent with
  | none =>
    -- first item
    let m := m.setPrev item none
    let m := m.setNext item m.begin
    let m := m.setBegin (some item)
    some (m.setPrev endItem (some item), item)
  | some parent => do
    let insertPos ← m.insertPos cell parent
    let m := m.linkBefore item insertPos
    let m ← rebalParentUpwards m.size m (some parent)
    some (m, item)

/-! ## Removing an item -/

/-- Close up the chain around `item`. -/
def unchain (m : ItemTree T V) (item next : ℕ) : ItemTree T V :=
  match (m.mem item).prev with
  | none => (m.setBegin (some next)).setPrev next none
  | some prev => (m.setNext prev (some next)).setPrev next (some prev)

/-- `item->prev = freeItem; freeItem = item`. -/
def release (m : ItemTree T V) (item : ℕ) : ItemTree T V :=
  { m.setPrev item m.freeItem with freeItem := some item }

/-- The end of `remove`: take the item out of the chain and put it on the free chain. -/
def unlinkItem (m : ItemTree T V) (item : ℕ) : Option (ItemTree T V × Ptr) := do
  let next ← (m.mem item).next
  let m := m.unchain item next
  let m := { m with size := m.size - 1 }
  let m := m.release item
  some (m, (m.mem item).next)

/-- `*cell = child; if(child) child->parent = parent`. -/
def hang (m : ItemTree T V) (cell : Cell) (child parent : Ptr) : ItemTree T V :=
  let m := m.write cell child
  match child with
  | some child => m.setParent child parent
  | none => m

/-- `*cell = x; x->parent = parent`, and then `far`, the child of the removed item on the other
side, goes below `x`. -/
def putInCell (d : Side) (m : ItemTree T V) (x : ℕ) (cell : Cell) (parent : Ptr) (far : ℕ) :
    ItemTree T V :=
  let m := m.write cell (some x)
  let m := m.setParent x parent
  let m := m.setChild x d.flip (some far)
  m.setParent far (some x)

/-- The case of `remove` where `item` has both children and its neighbour `x` on side `d`, the
outermost item below the `d`-child, takes its place: `d` is `right` for `next` and `left` for
`prev`. -/
def replaceBy (d : Side) (m : ItemTree T V) (item x : ℕ) (cell : Cell) (parent : Ptr)
    (near far : ℕ) : Option (ItemTree T V × Ptr) :=
  let xParent := (m.mem x).parent
  if xParent = some item then
    let m := putInCell d m x cell parent far
    rebalParent parent cell m.size m x
  else do
    let xParent ← xParent
    -- unlink
    let m := m.hang (.child xParent d.flip) ((m.mem x).child d) (some xParent)
    let m := putInCell d m x cell parent far
    -- link the child on this side
    let m := m.setChild x d (some near)
    let m := m.setParent near (some x)
    rebalParent parent cell m.size m xParent

/-- The part of `remove` before the label `rebalParentUpwards`, with the value of `parent` there. -/
def takeOut (m : ItemTree T V) (item : ℕ) : Option (ItemTree T V × Ptr) :=
  let parent := (m.mem item).parent
  let cell := m.cellOf item
  match (m.mem item).left, (m.mem item).right with
  | none, none => some (m.write cell none, parent)
  | none, some right => some ((m.write cell (some right)).setParent right parent, parent)
  | some left, none => some ((m.write cell (some left)).setParent left parent, parent)
  | some left, some right =>
    if (m.mem left).height < (m.mem right).height then do
      let next ← (m.mem item).next
      m.replaceBy .right item next cell parent right left
    else do
      let prev ← (m.mem item).prev
      m.replaceBy .left item prev cell parent left right

/-- `Iterator remove(const Iterator& it)`. -/
def remove (m : ItemTree T V) (item : ℕ) : Option (ItemTree T V × Ptr) := do
  let (m, parent) ← m.takeOut item
  let m ← rebalParentUpwards m.size m parent
  m.unlinkItem item

/-- `removeFront`. -/
def removeFront (m : ItemTree T V) : Option (ItemTree T V × Ptr) := do
  let item ← m.begin
  m.remove item

/-- `removeBack`. -/
def removeBack (m : ItemTree T V) : Option (ItemTree T V × Ptr) := do
  let item ← (m.mem endItem).prev
  m.remove item

/-! ## Clearing and searching -/

/-- The loop of `clear`, which puts every item from `i` up to `endItem` on the free chain. -/
def freeItems : ℕ → ItemTree T V → Ptr → Option (ItemTree T V)
  | 0, _, _ => none
  | fuel + 1, m, i =>
    if i = some endItem then some m
    else do
      let i ← i
      let m := m.release i
      freeItems fuel m (m.mem i).next

def clear (m : ItemTree T V) : Option (ItemTree T V) := do
  let m ← freeItems (m.size + 1) m m.begin
  let m := m.setBegin (some endItem)
  let m := m.setPrev endItem none
  some { m with size := 0, root := none }

/-- The loop of `find`. -/
def findFrom [LT T] [DecidableLT T] (m : ItemTree T V) (key : T) : ℕ → Ptr → Option ℕ
  | _, none => some endItem
  | 0, some _ => none
  | fuel + 1, some item =>
    if key > (m.mem item).key then findFrom m key fuel (m.mem item).right
    else if key < (m.mem item).key then findFrom m key fuel (m.mem item).left
    else some item

def find [LT T] [DecidableLT T] (m : ItemTree T V) (key : T) : Option ℕ :=
  m.findFrom key m.size m.root

/-- `void remove(const T& key)`. -/
def removeKey [LT T] [DecidableLT T] (m : ItemTree T V) (key : T) : Option (ItemTree T V) := do
  let it ← m.find key
  if it = endItem then some m
  else do
    let (m, _) ← m.remove it
    some m

end ItemTree

end Nstd
