import Nstd.Container.ArrayAssign

/-!
# An `Array` and references to its own elements

* `Heap` — blocks of slots, some of them deleted; `Ref` — a pointer or a reference to a slot.
* `reserve`, `append`, `appendArray`, `appendRange`, `resize` — the code again, on such a heap, with
  arguments that refer to it.
* `moveAll_eq`, `copyAll_eq`, `fillAll_eq` — loops on the heap are loops on slots.
* `reserve_moves`, `reserve_stays` — a reallocation, after which the old block is gone, or none.
* **`append_own_iff`** — which arguments inside of an array are safe.

A reallocation deletes the old block before the argument is read again, and without one the argument
stays where it is.  Whether there is one is known before the call.
-/

namespace Nstd.ArrayHeap

variable {T : Type}

/-- Blocks, `count` of them until now; `none` is a block that was deleted, or none at all. -/
structure Heap (T : Type) where
  block : ℕ → Option (Slots T)
  count : ℕ

/-- The fields of an `Array`: the block that `_begin` points to, how far `_end` is from it, and
    `_capacity` -/
structure Object where
  begin : Option ℕ
  size : ℕ
  capacity : ℕ

/-- `T*` and `const T&` -/
structure Ref where
  block : ℕ
  index : ℕ

/-- `++src` -/
def Ref.next (r : Ref) : Ref := { r with index := r.index + 1 }

namespace Heap

/-- The slots of a block are written to. -/
def put (h : Heap T) (b : ℕ) (m : Slots T) : Heap T :=
  { h with block := Function.update h.block b (some m) }

/-- `*r` -/
def read (h : Heap T) (r : Ref) : Option T := do
  let m ← h.block r.block
  m.read r.index

/-- `new(r) T(value)` -/
def construct (h : Heap T) (r : Ref) (value : T) : Option (Heap T) := do
  let m ← h.block r.block
  let m ← m.construct r.index value
  some (h.put r.block m)

/-- `r->~T()` -/
def destroy (h : Heap T) (r : Ref) : Option (Heap T) := do
  let m ← h.block r.block
  let m ← m.destroy r.index
  some (h.put r.block m)

/-- `new char[…]` -/
def allocate (h : Heap T) (m : Slots T) : Heap T × ℕ :=
  (⟨Function.update h.block h.count (some m), h.count + 1⟩, h.count)

/-- `delete[]` -/
def delete (h : Heap T) (b : ℕ) : Heap T := { h with block := Function.update h.block b none }

/-- An `Array` as it is without a heap -/
def view (h : Heap T) (o : Object) : ArrayData T := ⟨o.begin.bind h.block, o.size, o.capacity⟩

end Heap

/-! ## The code -/

/-- The loop of `reserve` -/
def moveAll : ℕ → Heap T → Ref → Ref → Option (Heap T)
  | 0, h, _, _ => some h
  | n + 1, h, src, dest => do
    let value ← h.read src
    let h ← h.construct dest value
    let h ← h.destroy src
    moveAll n h src.next dest.next

/-- The loop of `append`, of an array and from a pointer on -/
def copyAll : ℕ → Heap T → Ref → Ref → Option (Heap T)
  | 0, h, _, _ => some h
  | n + 1, h, src, item => do
    let value ← h.read src
    let h ← h.construct item value
    copyAll n h src.next item.next

/-- The loop of `resize` -/
def fillAll (value : Ref) : ℕ → Heap T → Ref → Option (Heap T)
  | 0, h, _ => some h
  | n + 1, h, i => do
    let v ← h.read value
    let h ← h.construct i v
    fillAll value n h i.next

/-- The loop of `resize` that makes an array smaller -/
def destroyAll : ℕ → Heap T → Ref → Option (Heap T)
  | 0, h, _ => some h
  | n + 1, h, i => do
    let h ← h.destroy i
    destroyAll n h i.next

/-- `reserve` -/
def reserve (sizeofT : ℕ) (h : Heap T) (o : Object) (size : ℕ) : Option (Heap T × Object) :=
  if size > o.capacity ∨ (o.begin.isNone ∧ size > 0) then
    let capacity := (if size > o.capacity then size else o.capacity) ||| 0x03
    let (h, newData) := h.allocate (ArrayData.allocate sizeofT capacity)
    match o.begin with
    | none => some (h, ⟨some newData, 0, capacity⟩)
    | some data => do
      let h ← moveAll o.size h ⟨data, 0⟩ ⟨newData, 0⟩
      some (h.delete data, ⟨some newData, o.size, capacity⟩)
  else some (h, o)

/-- `T& append(const T& value)` -/
def append (sizeofT : ℕ) (h : Heap T) (o : Object) (value : Ref) : Option (Heap T × Object) := do
  let (h, o) ← reserve sizeofT h o ((o.size + 1) % 2 ^ 64)
  let data ← o.begin
  let v ← h.read value
  let h ← h.construct ⟨data, o.size⟩ v
  some (h, { o with size := o.size + 1 })

/-- `append(const Array& values)` of the array itself, whose `_begin` is read when there is room -/
def appendArray (sizeofT : ℕ) (h : Heap T) (o : Object) : Option (Heap T × Object) := do
  let valuesSize := o.size
  let (h, o) ← reserve sizeofT h o ((o.size + valuesSize) % 2 ^ 64)
  match o.begin with
  | none => if valuesSize = 0 then some (h, o) else none
  | some data => do
    let h ← copyAll valuesSize h ⟨data, 0⟩ ⟨data, o.size⟩
    some (h, { o with size := o.size + valuesSize })

/-- `append(const T* values, usize size)` -/
def appendRange (sizeofT : ℕ) (h : Heap T) (o : Object) (values : Option Ref) (size : ℕ) :
    Option (Heap T × Object) := do
  let (h, o) ← reserve sizeofT h o ((o.size + size) % 2 ^ 64)
  match o.begin, values with
  | some data, some values => do
    let h ← copyAll size h values ⟨data, o.size⟩
    some (h, { o with size := o.size + size })
  | _, _ => if size = 0 then some (h, o) else none

/-- `resize` -/
def resize (sizeofT : ℕ) (h : Heap T) (o : Object) (size : ℕ) (value : Ref) : Option (Heap T × Object) :=
  if size < o.size then do
    let data ← o.begin
    let h ← destroyAll (o.size - size) h ⟨data, size⟩
    some (h, { o with size })
  else do
    let oldSize := o.size
    let (h, o) ← reserve sizeofT h o size
    match o.begin with
    | none => if size = oldSize then some (h, o) else none
    | some data => do
      let h ← fillAll value (size - oldSize) h ⟨data, oldSize⟩
      some (h, { o with size })

/-! ## Loops -/

section Loops

variable {h : Heap T} {b : ℕ} {m : Slots T}

@[simp] lemma block_put_self : (h.put b m).block b = some m := Function.update_self ..

lemma block_put_of_ne {b' : ℕ} (hne : b' ≠ b) : (h.put b m).block b' = h.block b' :=
  Function.update_of_ne hne ..

@[simp] lemma put_put (m' : Slots T) : (h.put b m).put b m' = h.put b m' := by
  simp only [Heap.put, Function.update_idem]

lemma put_self (hb : h.block b = some m) : h.put b m = h := by
  rw [Heap.put, Function.update_eq_self_iff.mpr hb.symm]

lemma put_comm {b' : ℕ} (hne : b ≠ b') (m' : Slots T) :
    (h.put b m).put b' m' = (h.put b' m').put b m := by
  simp only [Heap.put, Function.update_comm hne]

lemma read_eq (hb : h.block b = some m) (i : ℕ) : h.read ⟨b, i⟩ = m.read i := by
  rw [Heap.read, hb]
  rfl

/-- A slot of a block that was deleted -/
lemma read_eq_none (hb : h.block b = none) (i : ℕ) : h.read ⟨b, i⟩ = none := by
  rw [Heap.read, hb]
  rfl

lemma construct_eq (hb : h.block b = some m) (i : ℕ) (v : T) :
    h.construct ⟨b, i⟩ v = (m.construct i v).map (h.put b) := by
  unfold Heap.construct
  simp only [hb, Option.bind_eq_bind, Option.bind_some]
  cases m.construct i v <;> rfl

lemma destroy_eq (hb : h.block b = some m) (i : ℕ) : h.destroy ⟨b, i⟩ = (m.destroy i).map (h.put b) := by
  unfold Heap.destroy
  simp only [hb, Option.bind_eq_bind, Option.bind_some]
  cases m.destroy i <;> rfl

/-- **A loop that moves objects** from one block to another -/
lemma moveAll_eq {a : ℕ} (hne : a ≠ b) (n : ℕ) : ∀ {h : Heap T} {src m : Slots T} (i : ℕ),
    h.block a = some src → h.block b = some m →
    moveAll n h ⟨a, i⟩ ⟨b, i⟩
      = (Slots.moveAll src m i n).map fun x => (h.put a x.1).put b x.2 := by
  induction n with
  | zero =>
    intro h src m i ha hb
    rw [moveAll, Slots.moveAll, Option.map_some, put_self ha, put_self hb]
  | succ n ih =>
    intro h src m i ha hb
    rw [moveAll, Slots.moveAll, read_eq ha]
    simp only [construct_eq hb, Option.bind_eq_bind]
    cases src.read i with
    | none => rfl
    | some v =>
      simp only [Option.bind_some]
      cases m.construct i v with
      | none => rfl
      | some m₁ =>
        have ha₁ : (h.put b m₁).block a = some src := by rw [block_put_of_ne hne, ha]
        simp only [Option.map_some, Option.bind_some, destroy_eq ha₁]
        cases src.destroy i with
        | none => rfl
        | some src₁ =>
          have hb₁ : ((h.put b m₁).put a src₁).block b = some m₁ := by
            rw [block_put_of_ne (Ne.symm hne), block_put_self]
          simp only [Option.map_some, Option.bind_some]
          refine (ih (i + 1) block_put_self hb₁).trans ?_
          refine Option.map_congr fun x _ => ?_
          rw [put_put, put_comm (Ne.symm hne), put_put]

/-- Constructing in one slot leaves what is in the others. -/
lemma read_construct {m m' : Slots T} {i j : ℕ} {v : T} (hrun : m.construct j v = some m')
    (hne : i ≠ j) : m'.read i = m.read i := by
  rw [Slots.construct] at hrun
  split at hrun
  · rw [← Option.some.inj hrun, Slots.read, Slots.read]
    simp only [List.getElem?_set_ne (Ne.symm hne)]
  · exact absurd hrun.symm (Option.some_ne_none _)

/-- **A loop that copies objects** of a block behind them, in the same block -/
lemma copyAll_eq (vs : List T) : ∀ {h : Heap T} {m : Slots T} {i j : ℕ}, h.block b = some m →
    (∀ k (hk : k < vs.length), m.read (i + k) = some (vs[k])) → i + vs.length ≤ j →
    copyAll vs.length h ⟨b, i⟩ ⟨b, j⟩ = (m.constructAll j vs).map (h.put b) := by
  induction vs with
  | nil =>
    intro h m i j hb _ _
    rw [List.length_nil, copyAll, Slots.constructAll, Option.map_some, put_self hb]
  | cons v vs ih =>
    intro h m i j hb hread hle
    have hv : m.read i = some v := hread 0 (Nat.succ_pos _)
    rw [List.length_cons] at hle ⊢
    rw [copyAll, Slots.constructAll, read_eq hb, hv]
    simp only [construct_eq hb, Option.bind_eq_bind, Option.bind_some]
    cases hconstruct : m.construct j v with
    | none => rfl
    | some m₁ =>
      simp only [Option.map_some, Option.bind_some]
      refine (@ih _ m₁ (i + 1) (j + 1) block_put_self (fun k hk => ?_) (by omega)).trans ?_
      · rw [read_construct hconstruct (by omega)]
        have hnext := hread (k + 1) (Nat.succ_lt_succ hk)
        rw [List.getElem_cons_succ] at hnext
        rw [← hnext]
        congr 1
        omega
      · refine Option.map_congr fun x _ => ?_
        rw [put_put]

/-- **A loop that copies one object** behind it, in the same block -/
lemma fillAll_eq {v : T} (n : ℕ) : ∀ {h : Heap T} {m : Slots T} {i j : ℕ}, h.block b = some m →
    m.read i = some v → i < j →
    fillAll ⟨b, i⟩ n h ⟨b, j⟩ = (m.constructAll j (List.replicate n v)).map (h.put b) := by
  induction n with
  | zero =>
    intro h m i j hb _ _
    rw [fillAll, List.replicate_zero, Slots.constructAll, Option.map_some, put_self hb]
  | succ n ih =>
    intro h m i j hb hread hlt
    rw [fillAll, List.replicate_succ, Slots.constructAll, read_eq hb, hread]
    simp only [construct_eq hb, Option.bind_eq_bind, Option.bind_some]
    cases hconstruct : m.construct j v with
    | none => rfl
    | some m₁ =>
      simp only [Option.map_some, Option.bind_some]
      refine (ih block_put_self ?_ (Nat.lt_succ_of_lt hlt)).trans ?_
      · rw [read_construct hconstruct (Nat.ne_of_lt hlt), hread]
      · refine Option.map_congr fun x _ => ?_
        rw [put_put]

/-- A loop that destroys objects -/
lemma destroyAll_eq (n : ℕ) : ∀ {h : Heap T} {m : Slots T} {i : ℕ}, h.block b = some m →
    destroyAll n h ⟨b, i⟩ = (m.destroyAll i n).map (h.put b) := by
  induction n with
  | zero =>
    intro h m i hb
    rw [destroyAll, Slots.destroyAll, Option.map_some, put_self hb]
  | succ n ih =>
    intro h m i hb
    rw [destroyAll, Slots.destroyAll, destroy_eq hb]
    simp only [Option.bind_eq_bind]
    cases m.destroy i with
    | none => rfl
    | some m₁ =>
      simp only [Option.map_some, Option.bind_some]
      refine (ih block_put_self).trans ?_
      refine Option.map_congr fun x _ => ?_
      rw [put_put]

end Loops

/-! ## Reallocations -/

/-- The elements of an array, whose block was allocated and is not deleted -/
structure Owns (h : Heap T) (o : Object) (l : List T) : Prop where
  holds : (h.view o).Holds l
  live : ∀ b ∈ o.begin, b < h.count ∧ (h.block b).isSome

section Reallocations

variable {sizeofT : ℕ} {h : Heap T} {o : Object} {l : List T}

lemma Owns.size (ho : Owns h o l) : o.size = l.length := ho.holds.size

lemma Owns.bound (ho : Owns h o l) : l.length ≤ o.capacity := ho.holds.bound

/-- The slots of an array that has any -/
lemma Owns.block (ho : Owns h o l) {b : ℕ} (hb : o.begin = some b) : ∃ m, h.block b = some m
    ∧ (h.view o).storage = some m
    ∧ m.objects = l.map some ++ List.replicate (o.capacity - l.length) none := by
  obtain ⟨m, hm⟩ := Option.isSome_iff_exists.mp (ho.live b hb).2
  have hstorage : (h.view o).storage = some m := by
    rw [Heap.view, hb]
    exact hm
  exact ⟨m, hm, hstorage, ho.holds.objects m hstorage⟩

/-- An array whose block has its elements, and raw memory -/
lemma owns_block {data capacity room : ℕ} {m : Slots T} (hlt : data < h.count)
    (hm : h.block data = some m) (hcapacity : capacity = l.length + room)
    (hobjects : m.objects = l.map some ++ List.replicate room none)
    (hbalanced : m.constructed = m.destroyed + l.length) :
    Owns h ⟨some data, l.length, capacity⟩ l := by
  constructor
  · rw [Heap.view, Option.bind_some, hm]
    exact ArrayData.holds_some rfl hcapacity hobjects hbalanced
  · intro b hb
    obtain rfl := Option.mem_some_iff.mp hb
    exact ⟨hlt, by rw [hm]; rfl⟩

/-- `reserve` does not have to allocate. -/
lemma reserve_stays {size : ℕ} (hsize : size ≤ o.capacity) (hb : o.begin.isSome) :
    reserve sizeofT h o size = some (h, o) := by
  rw [reserve, if_neg]
  rintro (hlt | ⟨hnone, -⟩)
  · exact absurd hsize (Nat.not_le.mpr hlt)
  · rw [Option.isNone_iff_eq_none.mp hnone] at hb
    exact absurd hb Bool.false_ne_true

/-- **`reserve` has to allocate**: the elements are in a new block, if that has slots for them, and the
    old block is deleted. -/
lemma reserve_moves {size data : ℕ} (ho : Owns h o l) (hb : o.begin = some data)
    (hgt : size > o.capacity) :
    ((h.view o).slotsAfter sizeofT size < l.length → reserve sizeofT h o size = none)
    ∧ (l.length ≤ (h.view o).slotsAfter sizeofT size → ∃ h' new capacity m,
      reserve sizeofT h o size = some (h', ⟨some new, l.length, capacity⟩)
        ∧ h'.block new = some m
        ∧ m.objects = l.map some
          ++ List.replicate ((h.view o).slotsAfter sizeofT size - l.length) none
        ∧ h'.block data = none) := by
  obtain ⟨slots, hslots⟩ : ∃ slots, (h.view o).slotsAfter sizeofT size = slots := ⟨_, rfl⟩
  obtain ⟨m, hm⟩ : ∃ m : Slots T, ArrayData.allocate sizeofT (size ||| 0x03) = m := ⟨_, rfl⟩
  have hroom : m.objects = ([] : List T).map some ++ List.replicate slots none := by
    rw [← hm, ← hslots]
    have hview : size > (h.view o).capacity := hgt
    rw [ArrayData.slotsAfter, if_pos (Or.inl hview), ArrayData.newCapacity, if_pos hview]
    rfl
  obtain ⟨src, hsrc, -, hobjects⟩ := ho.block hb
  have hcount : data ≠ h.count := Nat.ne_of_lt (ho.live data hb).1
  have hsrc' : Function.update h.block h.count (some m) data = some src := by
    rw [Function.update_of_ne hcount, hsrc]
  have hmove := @moveAll_eq T h.count data hcount l.length
    ⟨Function.update h.block h.count (some m), h.count + 1⟩ src m 0 hsrc' (Function.update_self ..)
  have hslice : src.objects = [] ++ (l.map some
      ++ List.replicate (o.capacity - l.length) none) := hobjects
  have hloop := Slots.moveAll_eq hslice m
  rw [List.length_nil] at hloop
  obtain ⟨hsome, hfails⟩ := ArrayData.constructAll_room hroom l
  rw [List.length_nil] at hsome hfails
  rw [hslots, reserve, if_pos (Or.inl hgt)]
  simp only [if_pos hgt, hm, Heap.allocate, hb, ho.size, hmove, hloop, Option.bind_eq_bind]
  constructor
  · intro hlt
    rw [hfails hlt]
    rfl
  · intro hle
    obtain ⟨m', hrun, hm'⟩ := hsome hle
    rw [hrun]
    refine ⟨_, h.count, size ||| 0x03, m', rfl, ?_, hm', Function.update_self ..⟩
    simp only [Heap.delete, Heap.put, Function.update_of_ne (Ne.symm hcount), Function.update_self]

/-- What `reserve` comes to for references to the elements: nothing happens, or there is no object where
    they were. -/
lemma reserve_own {size data : ℕ} (ho : Owns h o l) (hb : o.begin = some data)
    (hgt : size > o.capacity) :
    reserve sizeofT h o size = none ∨ ∃ h' o', reserve sizeofT h o size = some (h', o')
      ∧ o'.begin.isSome ∧ h'.block data = none := by
  obtain ⟨hfails, hsome⟩ := @reserve_moves _ sizeofT _ _ _ size _ ho hb hgt
  by_cases hle : l.length ≤ (h.view o).slotsAfter sizeofT size
  · obtain ⟨h', new, capacity, m, hrun, -, -, hold⟩ := hsome hle
    exact Or.inr ⟨h', _, hrun, rfl, hold⟩
  · exact Or.inl (hfails (Nat.not_le.mp hle))

end Reallocations

/-! ## Own elements -/

section Own

variable {sizeofT : ℕ} {h : Heap T} {o : Object} {l : List T}

/-- The operation ends, and these are the elements that can be read then. -/
def Leaves (result : Option (Heap T × Object)) (l : List T) : Prop :=
  ∃ h' o', result = some (h', o') ∧ (h'.view o').Shows l

lemma not_leaves {l : List T} : ¬ Leaves (none : Option (Heap T × Object)) l := by
  rintro ⟨h', o', hrun, -⟩
  exact Option.some_ne_none _ hrun.symm

/-- What is constructed behind the elements -/
lemma construct_own {data capacity room : ℕ} {m : Slots T}
    (hm : m.objects = l.map some ++ List.replicate room none) (vs : List T) :
    (vs.length ≤ room → ∃ m', m.constructAll l.length vs = some m'
      ∧ ((h.put data m').view ⟨some data, l.length + vs.length, capacity⟩).Shows (l ++ vs))
    ∧ (room < vs.length → m.constructAll l.length vs = none) := by
  obtain ⟨hsome, hfails⟩ := ArrayData.constructAll_room hm vs
  refine ⟨fun hle => ?_, hfails⟩
  obtain ⟨m', hrun, hm'⟩ := hsome hle
  refine ⟨m', hrun, ?_⟩
  rw [Heap.view, Option.bind_some, block_put_self]
  exact ArrayData.shows_of_objects (List.length_append ..).symm hm'

lemma constructAll_one (m : Slots T) (i : ℕ) (v : T) : m.constructAll i [v] = m.construct i v := by
  rw [Slots.constructAll]
  cases m.construct i v <;> rfl

/-- The elements show where they are. -/
lemma Owns.shows (ho : Owns h o l) : (h.view o).Shows l := by
  refine ⟨ho.size, fun i hi => ?_⟩
  cases hb : o.begin with
  | none =>
    rw [ho.holds.null (by rw [Heap.view, hb]; rfl)] at hi
    exact absurd hi (Nat.not_lt_zero _)
  | some data =>
    obtain ⟨m, -, hstorage, hobjects⟩ := ho.block hb
    exact ⟨m, hstorage, ArrayData.read_objects hobjects hi⟩

/-- An operation that makes room, and then constructs copies of elements behind them, which it reads
    where they were -/
lemma leaves_iff (ho : Owns h o l) {data : ℕ} (hb : o.begin = some data) {m : Slots T}
    (hm : h.block data = some m) {vs : List T} {size : ℕ}
    {copies : Heap T × Object → Option (Heap T × Object)}
    (hroom : l.length + vs.length ≤ o.capacity → size ≤ o.capacity)
    (hcopies : copies (h, o) = (m.constructAll l.length vs).map fun m =>
      (h.put data m, ⟨some data, l.length + vs.length, o.capacity⟩))
    (hlost : size > o.capacity → ∀ h' o', o'.begin.isSome → h'.block data = none →
      copies (h', o') = none) :
    Leaves ((reserve sizeofT h o size).bind copies) (l ++ vs)
      ↔ l.length + vs.length ≤ o.capacity := by
  obtain ⟨m', hm', -, hobjects⟩ := ho.block hb
  obtain rfl : m = m' := Option.some.inj (hm.symm.trans hm')
  obtain ⟨hsome, hfails⟩ := @construct_own T h l data o.capacity _ m hobjects vs
  have hstays : size ≤ o.capacity → (reserve sizeofT h o size).bind copies = copies (h, o) := by
    intro hle
    rw [reserve_stays hle (by rw [hb]; rfl), Option.bind_some]
  have hbound := ho.bound
  constructor
  · intro hleaves
    by_contra hfull
    by_cases hle : size ≤ o.capacity
    · rw [hstays hle, hcopies, hfails (by omega)] at hleaves
      exact not_leaves hleaves
    · have hgt := Nat.not_le.mp hle
      rcases @reserve_own _ sizeofT _ _ _ _ _ ho hb hgt with hnone | ⟨h', o', hrun, hbegin, hold⟩
      · rw [hnone] at hleaves
        exact not_leaves hleaves
      · rw [hrun, Option.bind_some, hlost hgt h' o' hbegin hold] at hleaves
        exact not_leaves hleaves
  · intro hle
    obtain ⟨m', hrun, hshows⟩ := hsome (by omega)
    rw [hstays (hroom hle), hcopies, hrun]
    exact ⟨_, _, rfl, hshows⟩

/-- **`append` of an element** of the array -/
lemma append_iff (ho : Owns h o l) {data : ℕ} (hb : o.begin = some data) {i : ℕ}
    (hi : i < l.length) : Leaves (append sizeofT h o ⟨data, i⟩) (l ++ [l[i]])
      ↔ l.length + 1 ≤ o.capacity := by
  obtain ⟨m, hm, -, hobjects⟩ := ho.block hb
  have hread : h.read ⟨data, i⟩ = some l[i] :=
    (read_eq hm i).trans (ArrayData.read_objects hobjects hi)
  refine leaves_iff ho hb hm (fun hroom => Nat.le_trans (Nat.mod_le ..) (ho.size ▸ hroom)) ?_ ?_
  · simp only [Option.bind_eq_bind, Option.bind_some, hb, hread, ho.size, construct_eq hm,
      constructAll_one]
    cases m.construct l.length l[i] <;> rfl
  · intro _ h' o' hbegin hold
    obtain ⟨new, hnew⟩ := Option.isSome_iff_exists.mp hbegin
    simp only [Option.bind_eq_bind, Option.bind_some, hnew, read_eq_none hold, Option.bind_none]

/-- **`append` of elements** of the array -/
lemma appendRange_iff (ho : Owns h o l) {data : ℕ} (hb : o.begin = some data) {i n : ℕ}
    (hi : i + n ≤ l.length) :
    Leaves (appendRange sizeofT h o (some ⟨data, i⟩) n) (l ++ (l.drop i).take n)
      ↔ l.length + n ≤ o.capacity := by
  obtain ⟨m, hm, -, hobjects⟩ := ho.block hb
  obtain ⟨vs, hvs⟩ : ∃ vs, (l.drop i).take n = vs := ⟨_, rfl⟩
  have hlength : vs.length = n := by
    rw [← hvs, List.length_take, List.length_drop]
    omega
  have hread : ∀ k (hk : k < vs.length), m.read (i + k) = some vs[k] := by
    intro k hk
    simp only [← hvs, List.getElem_take, List.getElem_drop]
    exact ArrayData.read_objects hobjects (by omega)
  rw [hvs, ← hlength]
  refine leaves_iff ho hb hm (fun hroom => Nat.le_trans (Nat.mod_le ..) (ho.size ▸ hroom)) ?_ ?_
  · have hloop := copyAll_eq vs hm hread (show i + vs.length ≤ l.length by rwa [hlength])
    simp only [Option.bind_eq_bind, hb, ho.size, hloop]
    cases m.constructAll l.length vs <;> rfl
  · intro hgt h' o' hbegin hold
    obtain ⟨new, hnew⟩ := Option.isSome_iff_exists.mp hbegin
    have hpos : vs.length ≠ 0 := fun hzero => by
      rw [hzero, Nat.add_zero, ho.size] at hgt
      exact absurd (Nat.le_trans (Nat.mod_le ..) ho.bound) (Nat.not_le.mpr hgt)
    obtain ⟨k, hk⟩ := Nat.exists_eq_succ_of_ne_zero hpos
    simp only [Option.bind_eq_bind, hnew, hk, copyAll, read_eq_none hold, Option.bind_none]

/-- **`resize` with an element** of the array -/
lemma resize_iff (ho : Owns h o l) {data : ℕ} (hb : o.begin = some data) {i : ℕ}
    (hi : i < l.length) (size : ℕ) :
    Leaves (resize sizeofT h o size ⟨data, i⟩)
        (l.take size ++ List.replicate (size - l.length) l[i])
      ↔ size ≤ o.capacity := by
  obtain ⟨m, hm, hstorage, hobjects⟩ := ho.block hb
  rw [resize, ho.size]
  by_cases hlt : size < l.length
  · refine iff_of_true ?_ (Nat.le_trans (Nat.le_of_lt hlt) ho.bound)
    rw [if_pos hlt, Nat.sub_eq_zero_of_le (Nat.le_of_lt hlt), List.replicate_zero, List.append_nil]
    have hlength : (l.take size).length = size := List.length_take_of_le (Nat.le_of_lt hlt)
    have hsplit : (h.view o).Holds (l.take size ++ l.drop size) := by
      rw [List.take_append_drop]
      exact ho.holds
    obtain ⟨m', hrun, hholds⟩ := ArrayData.destroyAll_spec hsplit hstorage
    rw [hlength, List.length_drop] at hrun
    simp only [hb, Option.bind_eq_bind, Option.bind_some, destroyAll_eq _ hm, hrun, Option.map_some]
    refine ⟨_, _, rfl, ?_⟩
    have hview : (h.put data m').view ⟨some data, size, o.capacity⟩
        = ⟨some m', (l.take size).length, o.capacity⟩ := by
      rw [Heap.view, Option.bind_some, block_put_self, hlength]
    rw [hview]
    exact ArrayData.shows_of_objects rfl (hholds.objects m' rfl)
  · have hle : l.length ≤ size := Nat.not_lt.mp hlt
    obtain ⟨n, rfl⟩ := Nat.exists_eq_add_of_le hle
    rw [if_neg hlt, Nat.add_sub_cancel_left, List.take_of_length_le hle]
    have hiff := @leaves_iff _ sizeofT h o l ho data hb m hm (List.replicate n l[i])
    rw [List.length_replicate] at hiff
    refine hiff id ?_ ?_
    · have hloop := fillAll_eq n hm (ArrayData.read_objects hobjects hi) hi
      simp only [Option.bind_eq_bind, hb, Nat.add_sub_cancel_left, hloop]
      cases m.constructAll l.length (List.replicate n l[i]) <;> rfl
    · intro hgt h' o' hbegin hold
      obtain ⟨new, hnew⟩ := Option.isSome_iff_exists.mp hbegin
      have hpos : n ≠ 0 := fun hzero => by
        rw [hzero, Nat.add_zero] at hgt
        exact absurd ho.bound (Nat.not_le.mpr hgt)
      obtain ⟨k, rfl⟩ := Nat.exists_eq_succ_of_ne_zero hpos
      simp only [Option.bind_eq_bind, hnew, Nat.add_sub_cancel_left, fillAll, read_eq_none hold,
        Option.bind_none]

/-- The loop of `append`, of elements that are in the block they are copied to -/
lemma copyAll_iff {data slots capacity : ℕ} {m : Slots T} (hm : h.block data = some m)
    (hobjects : m.objects = l.map some ++ List.replicate (slots - l.length) none)
    (hle : l.length ≤ slots) :
    Leaves ((copyAll l.length h ⟨data, 0⟩ ⟨data, l.length⟩).bind fun h =>
        some (h, ⟨some data, l.length + l.length, capacity⟩)) (l ++ l)
      ↔ l.length + l.length ≤ slots := by
  have hloop := copyAll_eq l hm (fun k hk => by
    rw [Nat.zero_add]
    exact ArrayData.read_objects hobjects hk) (Nat.le_of_eq (Nat.zero_add l.length))
  obtain ⟨hsome, hfails⟩ := @construct_own T h l data capacity _ m hobjects l
  rw [hloop]
  constructor
  · intro hleaves
    by_contra hfull
    rw [hfails (by omega)] at hleaves
    exact not_leaves hleaves
  · intro hroom
    obtain ⟨m', hrun, hshows⟩ := hsome (by omega)
    rw [hrun]
    exact ⟨_, _, rfl, hshows⟩

/-- **`append` of the array** itself, whose elements are read where they are when there is room -/
lemma appendArray_iff (ho : Owns h o l) : Leaves (appendArray sizeofT h o) (l ++ l)
    ↔ l.length + l.length ≤ (h.view o).slotsAfter sizeofT ((l.length + l.length) % 2 ^ 64) := by
  obtain ⟨size, hsize⟩ : ∃ size, (l.length + l.length) % 2 ^ 64 = size := ⟨_, rfl⟩
  rw [appendArray, ho.size, hsize]
  cases hb : o.begin with
  | none =>
    obtain rfl : l = [] := ho.holds.null (by rw [Heap.view, hb]; rfl)
    have hstays : reserve sizeofT h o size = some (h, o) := by
      rw [reserve, if_neg]
      rw [← hsize]
      exact fun hor => hor.elim (Nat.not_lt_zero _) fun hand => Nat.lt_irrefl _ hand.2
    refine iff_of_true ⟨h, o, ?_, ho.shows⟩ (Nat.zero_le _)
    simp only [hstays, hb, Option.bind_eq_bind, Option.bind_some, List.length_nil, if_true]
  | some data =>
    by_cases hle : size ≤ o.capacity
    · obtain ⟨m, hm, hstorage, hobjects⟩ := ho.block hb
      have hslots : (h.view o).slotsAfter sizeofT size = o.capacity := by
        refine if_neg ?_
        rintro (hgt | ⟨hnone, -⟩)
        · exact absurd hle (Nat.not_le.mpr hgt)
        · rw [hstorage] at hnone
          exact Bool.false_ne_true hnone
      rw [hslots, reserve_stays hle (by rw [hb]; rfl)]
      simp only [hb, ho.size, Option.bind_eq_bind, Option.bind_some]
      exact copyAll_iff hm hobjects ho.bound
    · obtain ⟨hfails, hsome⟩ := @reserve_moves _ sizeofT _ _ _ _ _ ho hb (Nat.not_le.mp hle)
      by_cases hslots : l.length ≤ (h.view o).slotsAfter sizeofT size
      · obtain ⟨h', new, capacity, m, hrun, hm, hobjects, -⟩ := hsome hslots
        simp only [hrun, Option.bind_eq_bind, Option.bind_some]
        exact copyAll_iff hm hobjects hslots
      · refine iff_of_false ?_ (by omega)
        rw [hfails (Nat.not_le.mp hslots)]
        exact not_leaves

end Own

/-- **References to the own elements**: each form of `append`, and `resize`, appends the values that the
    elements had just when the array does not have to be reallocated, or nothing is appended.  Only
    the array itself can be appended whenever there is memory for it. -/
theorem append_own_iff (sizeofT : ℕ) {h : Heap T} {o : Object} {l : List T} (ho : Owns h o l) :
    (∀ data ∈ o.begin, ∀ i (hi : i < l.length),
      (Leaves (append sizeofT h o ⟨data, i⟩) (l ++ [l[i]]) ↔ l.length + 1 ≤ o.capacity))
    ∧ (Leaves (appendArray sizeofT h o) (l ++ l)
      ↔ l.length + l.length ≤ (h.view o).slotsAfter sizeofT ((l.length + l.length) % 2 ^ 64))
    ∧ (∀ data ∈ o.begin, ∀ i n, i + n ≤ l.length →
      (Leaves (appendRange sizeofT h o (some ⟨data, i⟩) n) (l ++ (l.drop i).take n)
        ↔ l.length + n ≤ o.capacity))
    ∧ ∀ data ∈ o.begin, ∀ i (hi : i < l.length) (size : ℕ),
      (Leaves (resize sizeofT h o size ⟨data, i⟩)
          (l.take size ++ List.replicate (size - l.length) l[i])
        ↔ size ≤ o.capacity) :=
  ⟨fun _ hb _ hi => append_iff ho hb hi, appendArray_iff ho, fun _ hb _ _ hi => appendRange_iff ho hb hi,
    fun _ hb _ hi size => resize_iff ho hb hi size⟩

/-- The memory of a caller that has three values in an array of its own -/
def callerHeap : Heap ℕ := ⟨fun b => if b = 0 then some ⟨[some 7, some 8, some 9], 3, 0⟩ else none, 1⟩

/-- An array of two of the values, which has a third slot: an element is appended. -/
theorem append_own_iff_room : ∃ h : Heap ℕ,
    appendRange 8 callerHeap ⟨none, 0, 0⟩ (some ⟨0, 0⟩) 2 = some (h, ⟨some 1, 2, 3⟩)
    ∧ Leaves (append 8 h ⟨some 1, 2, 3⟩ ⟨1, 0⟩) [7, 8, 7] := by
  obtain ⟨h, hrun, ho⟩ : ∃ h : Heap ℕ,
      appendRange 8 callerHeap ⟨none, 0, 0⟩ (some ⟨0, 0⟩) 2 = some (h, ⟨some 1, 2, 3⟩)
      ∧ Owns h ⟨some 1, 2, 3⟩ [7, 8] :=
    ⟨_, rfl, @owns_block ℕ _ [7, 8] 1 3 1 _ (Nat.lt_succ_self 1) rfl rfl rfl rfl⟩
  exact ⟨h, hrun, ((append_own_iff 8 ho).1 1 rfl 0 Nat.two_pos).mpr (by decide)⟩

/-- **An array of the three values**, which is full: the element that is appended is read when its
    block was deleted. -/
theorem append_own_full : ∃ h : Heap ℕ,
    appendRange 8 callerHeap ⟨none, 0, 0⟩ (some ⟨0, 0⟩) 3 = some (h, ⟨some 1, 3, 3⟩)
    ∧ Owns h ⟨some 1, 3, 3⟩ [7, 8, 9] ∧ append 8 h ⟨some 1, 3, 3⟩ ⟨1, 0⟩ = none :=
  ⟨_, rfl, @owns_block ℕ _ [7, 8, 9] 1 3 0 _ (Nat.lt_succ_self 1) rfl rfl rfl rfl, rfl⟩

end Nstd.ArrayHeap
