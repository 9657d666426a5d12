import Nstd.Container.BufferBlocks

/-!
# The layout of a `Buffer`

* `Valid` — the order of the pointers of a `Buffer`.
* `Holds` — how the bytes lie in the block: a gap, the bytes, and room of at least one byte.
* `assign_spec`, `prepend_spec`, `append_spec`, `resize_spec`, … — what an operation does to the
  bytes when no sum of pointers and sizes reaches `2 ^ 64`.
* `EndsBy` — where the block ends; `append_low` — no sum that `append` makes reaches `2 ^ 64` while
  blocks are in the lower half of the addresses.
-/

namespace Nstd.Buffer

/-- The order of the pointers, and the size of the block -/
def Valid (b : Buffer) : Prop :=
  match b.buffer with
  | none => b.capacity = 0 ∧ b.content = some []
  | some k => k.address ≤ b.bufferStart ∧ b.bufferStart ≤ b.bufferEnd
      ∧ b.bufferEnd ≤ k.address + b.capacity ∧ k.bytes.length = b.capacity + 1

/-- The place of an object -/
def Place (capacityField : ℕ) : Prop := 0 < capacityField ∧ capacityField + 8 ≤ 2 ^ 64

/-- The sums that `resize` makes: the number of bytes of a new block, or the new `bufferEnd`. -/
def ResizeFits (b : Buffer) (size : ℕ) : Prop :=
  if size > b.capacity then size + 1 < 2 ^ 64
  else b.buffer.isSome → b.bufferStart + size < 2 ^ 64

/-! ## Layouts -/

/-- A `Buffer` whose block begins with a gap and ends with room -/
def laid (f a : ℕ) (gap l room : List UInt8) : Buffer :=
  { capacityField := f, buffer := some ⟨a, gap ++ l ++ room⟩, attached := none,
    bufferStart := a + gap.length, bufferEnd := a + gap.length + l.length,
    capacity := gap.length + l.length + room.length - 1 }

/-- **How a `Buffer` holds its bytes** -/
inductive Holds : Buffer → List UInt8 → Prop
  | null {f : ℕ} : Place f → Holds (.null f) []
  | laid {f a : ℕ} {gap l room : List UInt8} : Place f → 0 < a → 0 < room.length →
      a + (gap.length + l.length + room.length) ≤ 2 ^ 64 → Holds (.laid f a gap l room) l

lemma wrapAdd_eq {a b : ℕ} (h : a + b < 2 ^ 64) : wrapAdd a b = a + b := Nat.mod_eq_of_lt h

lemma wrapAdd_over {a b : ℕ} (ha : a < 2 ^ 64) (_ : b < 2 ^ 64) (h : 2 ^ 64 ≤ a + b) :
    wrapAdd a b = a + b - 2 ^ 64 := by
  rw [wrapAdd, Nat.mod_eq_sub_mod h]
  exact Nat.mod_eq_of_lt (by omega)

lemma wrapSub_eq {a b : ℕ} (ha : a < 2 ^ 64) (h : b ≤ a) : wrapSub a b = a - b := by
  rw [wrapSub, show a + 2 ^ 64 - b = a - b + 2 ^ 64 by omega, Nat.add_mod_right,
    Nat.mod_eq_of_lt (by omega)]

lemma wrapSub_over {a b : ℕ} (_ : b < 2 ^ 64) (h : a < b) : wrapSub a b = a + 2 ^ 64 - b :=
  Nat.mod_eq_of_lt (by omega)

section Laid

variable {f a : ℕ} {gap l room : List UInt8}

@[simp] lemma laid_buffer : (laid f a gap l room).buffer = some ⟨a, gap ++ l ++ room⟩ := rfl

@[simp] lemma laid_attached : (laid f a gap l room).attached = none := rfl

@[simp] lemma laid_bufferStart : (laid f a gap l room).bufferStart = a + gap.length := rfl

@[simp] lemma laid_bufferEnd : (laid f a gap l room).bufferEnd = a + gap.length + l.length := rfl

@[simp] lemma laid_capacity :
    (laid f a gap l room).capacity = gap.length + l.length + room.length - 1 := rfl

lemma laid_size (ha : a + (gap.length + l.length + room.length) ≤ 2 ^ 64)
    (hroom : 0 < room.length) : (laid f a gap l room).size = l.length := by
  rw [size, laid_bufferEnd, laid_bufferStart, wrapSub_eq (by omega) (by omega),
    Nat.add_sub_cancel_left]

/-- `bufferStart - buffer` -/
lemma laid_gap (ha : a + (gap.length + l.length + room.length) ≤ 2 ^ 64)
    (hroom : 0 < room.length) : wrapSub (laid f a gap l room).bufferStart a = gap.length := by
  rw [laid_bufferStart, wrapSub_eq (by omega) (Nat.le_add_right _ _), Nat.add_sub_cancel_left]

lemma laid_content (ha : a + (gap.length + l.length + room.length) ≤ 2 ^ 64)
    (hroom : 0 < room.length) : (laid f a gap l room).content = some l := by
  rw [content, laid_size ha hroom]
  exact MemoryBlock.read_split rfl rfl

lemma laid_valid (hroom : 0 < room.length) : (laid f a gap l room).Valid := by
  refine ⟨Nat.le_add_right _ _, Nat.le_add_right _ _, ?_, ?_⟩
  · change a + gap.length + l.length ≤ a + (gap.length + l.length + room.length - 1)
    omega
  · rw [laid_capacity, List.length_append, List.length_append]
    omega

/-- `*bufferEnd = 0` changes the first byte of the room. -/
lemma laid_terminate (gap l : List UInt8) (hroom : 0 < room.length) :
    ∃ room', room'.length = room.length ∧
      (laid f a gap l room).terminate = some (laid f a gap l room') := by
  obtain ⟨c, rest, rfl⟩ := List.exists_cons_of_length_pos hroom
  refine ⟨0 :: rest, rfl, ?_⟩
  have hwrite : MemoryBlock.write ⟨a, gap ++ l ++ c :: rest⟩ (a + gap.length + l.length) [0]
      = some ⟨a, gap ++ l ++ 0 :: rest⟩ := by
    have hsplit : gap ++ l ++ c :: rest = (gap ++ l) ++ [c] ++ rest := by simp
    have haddr : a + gap.length + l.length = a + (gap ++ l).length := by
      rw [List.length_append, Nat.add_assoc]
    have hone : [(0 : UInt8)].length = [c].length := rfl
    rw [MemoryBlock.write_split hsplit haddr hone]
    simp
  simp only [terminate, laid, Option.isNone_some, Bool.false_eq_true, false_and, if_false, write,
    hwrite, Option.bind_eq_bind, Option.bind_some, List.length_cons]

/-- A `Buffer` that was terminated holds its bytes. -/
lemma holds_terminate (gap l room : List UInt8) (hf : Place f) (ha : 0 < a)
    (hroom : 0 < room.length) (hle : a + (gap.length + l.length + room.length) ≤ 2 ^ 64) :
    ∃ b, (laid f a gap l room).terminate = some b ∧ b.Holds l := by
  obtain ⟨room', hlength, hrun⟩ := laid_terminate (f := f) (a := a) gap l hroom
  exact ⟨_, hrun, .laid hf ha (hlength ▸ hroom) (hlength ▸ hle)⟩

end Laid

lemma null_size {f : ℕ} (hf : Place f) : (null f).size = 0 := by
  have hlt : f < 2 ^ 64 := Nat.lt_of_lt_of_le (Nat.lt_add_of_pos_right (by decide)) hf.2
  rw [size, null, wrapSub_eq hlt (Nat.le_refl _), Nat.sub_self]

lemma null_content {f : ℕ} (hf : Place f) : (null f).content = some [] := by
  rw [content, null_size hf]
  rfl

lemma Holds.valid {b : Buffer} {l : List UInt8} (h : b.Holds l) : b.Valid := by
  cases h with
  | null hf => exact ⟨rfl, null_content hf⟩
  | laid hf ha hroom hle => exact laid_valid hroom

lemma Holds.content {b : Buffer} {l : List UInt8} (h : b.Holds l) : b.content = some l := by
  cases h with
  | null hf => exact null_content hf
  | laid hf ha hroom hle => exact laid_content hle hroom

lemma Holds.size {b : Buffer} {l : List UInt8} (h : b.Holds l) : b.size = l.length := by
  cases h with
  | null hf => exact null_size hf
  | laid hf ha hroom hle => exact laid_size hle hroom

lemma Holds.place {b : Buffer} {l : List UInt8} (h : b.Holds l) : Place b.capacityField := by
  cases h with
  | null hf => exact hf
  | laid hf ha hroom hle => exact hf

lemma Holds.attached {b : Buffer} {l : List UInt8} (h : b.Holds l) : b.attached = none := by
  cases h with
  | null hf => rfl
  | laid hf ha hroom hle => rfl

lemma Holds.length_le {b : Buffer} {l : List UInt8} (h : b.Holds l) : l.length ≤ b.capacity := by
  cases h with
  | null hf => exact Nat.le_refl _
  | laid hf ha hroom hle =>
    rw [laid_capacity]
    omega

/-- Sizes and pointers of a `Buffer` have 64 bits. -/
lemma Holds.bounds {b : Buffer} {l : List UInt8} (h : b.Holds l) :
    b.bufferStart + l.length = b.bufferEnd ∧ b.bufferEnd < 2 ^ 64 := by
  cases h with
  | null hf =>
    have := hf.2
    exact ⟨rfl, by simp only [Buffer.null]; omega⟩
  | laid hf ha hroom hle =>
    refine ⟨rfl, ?_⟩
    rw [laid_bufferEnd]
    omega

/-- What the fields of a `Buffer` have to be for a layout -/
lemma eq_laid {b : Buffer} {f a : ℕ} {gap l room : List UInt8} (hfield : b.capacityField = f)
    (hbuffer : b.buffer = some ⟨a, gap ++ l ++ room⟩) (hattached : b.attached = none)
    (hstart : b.bufferStart = a + gap.length) (hend : b.bufferEnd = a + gap.length + l.length)
    (hcapacity : b.capacity + 1 = gap.length + l.length + room.length) :
    b = laid f a gap l room := by
  obtain ⟨f', buffer, attached, bufferStart, bufferEnd, capacity⟩ := b
  simp only at hfield hbuffer hattached hstart hend hcapacity
  rw [laid, hfield, hbuffer, hattached, hstart, hend, ← hcapacity, Nat.add_sub_cancel]

lemma Holds.terminate {b : Buffer} {l : List UInt8} (h : b.Holds l) :
    ∃ b', b.terminate = some b' ∧ b'.Holds l := by
  cases h with
  | null hf => exact ⟨_, by simp [Buffer.terminate, Buffer.null], .null hf⟩
  | laid hf ha hroom hle => exact holds_terminate _ _ _ hf ha hroom hle

/-- What `new char[n]` returns has `n` bytes in the address space. -/
lemma new_spec (A : Allocator) {n : ℕ} (hn : n < 2 ^ 64) :
    0 < (A.new n).address ∧ (A.new n).address + (A.new n).bytes.length ≤ 2 ^ 64
      ∧ (A.new n).bytes.length = n := by
  have hlength : (A.new n).bytes.length = n := A.bytes_length n
  exact ⟨A.address_pos n, hlength.symm ▸ A.address_le n hn, hlength⟩

/-! ## Operations -/

/-- Bytes are copied to the begin of a block with room for them. -/
lemma fill_spec {b : Buffer} {k : MemoryBlock} {data : List UInt8} (hf : Place b.capacityField)
    (hattached : b.attached = none) (ha : 0 < k.address)
    (hle : k.address + k.bytes.length ≤ 2 ^ 64) (hcapacity : b.capacity + 1 = k.bytes.length)
    (hdata : data.length ≤ b.capacity) : ∃ b', b.fill k data = some b' ∧ b'.Holds data := by
  obtain ⟨old, room, hk, hold⟩ := exists_split (show data.length ≤ k.bytes.length by omega)
  have hlength : k.bytes.length = old.length + room.length := by rw [hk, List.length_append]
  have hwrite : k.write k.address data = some ⟨k.address, [] ++ data ++ room⟩ :=
    MemoryBlock.write_front hk hold.symm
  have hlaid : { b with
      buffer := some ⟨k.address, [] ++ data ++ room⟩, bufferStart := k.address,
      bufferEnd := wrapAdd k.address data.length } = laid b.capacityField k.address [] data room :=
    eq_laid rfl rfl hattached rfl (wrapAdd_eq (by omega))
      (by simp only [List.length_nil]; omega)
  rw [fill, hwrite, Option.bind_eq_bind, Option.bind_some, hlaid]
  exact holds_terminate _ _ _ hf ha (by omega) (by simp only [List.length_nil]; omega)

lemma ofBytes_spec (A : Allocator) {f : ℕ} {data : List UInt8} (hf : Place f)
    (hdata : data.length + 1 < 2 ^ 64) :
    ∃ b, ofBytes A f data = some b ∧ b.Holds data := by
  obtain ⟨ha, hle, hlength⟩ := new_spec A hdata
  rw [ofBytes, wrapAdd_eq hdata]
  exact fill_spec hf rfl ha hle hlength.symm (Nat.le_refl _)

lemma ofCapacity_spec (A : Allocator) {f capacity : ℕ} (hf : Place f)
    (hcapacity : capacity + 1 < 2 ^ 64) :
    ∃ b, ofCapacity A f capacity = some b ∧ b.Holds [] := by
  obtain ⟨ha, hle, hlength⟩ := new_spec A hcapacity
  have hlaid : { null f with
      buffer := some (A.new (capacity + 1)), bufferStart := (A.new (capacity + 1)).address,
      bufferEnd := (A.new (capacity + 1)).address, capacity }
      = laid f (A.new (capacity + 1)).address [] [] (A.new (capacity + 1)).bytes :=
    eq_laid rfl rfl rfl rfl rfl (by simp only [List.length_nil]; omega)
  rw [ofCapacity, wrapAdd_eq hcapacity, hlaid]
  exact holds_terminate _ _ _ hf ha (by omega) (by simp only [List.length_nil]; omega)

lemma assign_spec (A : Allocator) {b : Buffer} {l : List UInt8} (data : List UInt8)
    (h : b.Holds l) (hdata : data.length + 1 < 2 ^ 64) :
    ∃ b', b.assign A data = some b' ∧ b'.Holds data := by
  rw [assign]
  split_ifs with hgrow
  · obtain ⟨ha, hle, hlength⟩ := new_spec A hdata
    rw [wrapAdd_eq hdata]
    exact fill_spec h.place h.attached ha hle hlength.symm (Nat.le_refl _)
  · cases h with
    | null hf =>
      have hzero : data.length = 0 := Nat.le_zero.mp (Nat.not_lt.mp hgrow)
      have hnil : data = [] := List.eq_nil_of_length_eq_zero hzero
      exact ⟨_, rfl, hnil ▸ .null hf⟩
    | @laid f a gap l room hf ha hroom hle =>
      have hlength : (gap ++ l ++ room).length = gap.length + l.length + room.length := by
        rw [List.length_append, List.length_append]
      exact fill_spec hf rfl ha (hlength ▸ hle) (by rw [laid_capacity, hlength]; omega)
        (Nat.not_lt.mp hgrow)

/-- The bytes are copied to a new block, and more bytes may follow them there. -/
lemma grow_spec (A : Allocator) {b : Buffer} {l : List UInt8} (h : b.Holds l) {capacity size : ℕ}
    (hcapacity : capacity + 1 < 2 ^ 64) (hsize : size ≤ capacity) (hl : l.length ≤ size) :
    ∃ b' added, b.grow A capacity size = some b' ∧ b'.Holds (l ++ added)
      ∧ (l ++ added).length = size := by
  obtain ⟨ha, hle, hlength⟩ := new_spec A hcapacity
  obtain ⟨old, room, hk, hold⟩ := exists_split
    (show l.length ≤ (A.new (capacity + 1)).bytes.length by omega)
  have hrest : (A.new (capacity + 1)).bytes.length = old.length + room.length := by
    rw [hk, List.length_append]
  obtain ⟨added, room', rfl, hadded⟩ := exists_split (show size - l.length ≤ room.length by omega)
  rw [List.length_append] at hrest
  have hread : b.read b.bufferStart b.size = some l := h.content
  have hwrite : (A.new (capacity + 1)).write (A.new (capacity + 1)).address l
      = some ⟨(A.new (capacity + 1)).address, [] ++ (l ++ added) ++ room'⟩ := by
    rw [MemoryBlock.write_front hk hold.symm, List.nil_append, List.append_assoc]
  have hsum : (l ++ added).length = size := by
    rw [List.length_append]
    omega
  have hcap : capacity + 1 = size + room'.length := by omega
  have hlaid : { b with
      buffer := some ⟨(A.new (capacity + 1)).address, [] ++ (l ++ added) ++ room'⟩,
      bufferStart := (A.new (capacity + 1)).address,
      bufferEnd := wrapAdd (A.new (capacity + 1)).address size, capacity }
      = laid b.capacityField (A.new (capacity + 1)).address [] (l ++ added) room' :=
    eq_laid rfl rfl h.attached rfl (by rw [hsum]; exact wrapAdd_eq (by omega))
      (by rw [hsum, List.length_nil, Nat.zero_add]; exact hcap)
  obtain ⟨b', hrun, hb'⟩ := holds_terminate [] (l ++ added) room' h.place ha
    (by omega) (by rw [hsum, List.length_nil]; omega)
  refine ⟨b', added, ?_, hb', hsum⟩
  rw [grow, wrapAdd_eq hcapacity]
  simp only [hread, hwrite, Option.bind_eq_bind, Option.bind_some]
  exact hlaid ▸ hrun

lemma reserve_spec (A : Allocator) {b : Buffer} {l : List UInt8} (h : b.Holds l) {capacity : ℕ}
    (hfits : capacity > b.capacity → capacity + 1 < 2 ^ 64) :
    ∃ b', b.reserve A capacity = some b' ∧ b'.Holds l := by
  rw [reserve]
  split_ifs with hle
  · exact ⟨b, rfl, h⟩
  · have hgt := Nat.not_le.mp hle
    obtain ⟨b', added, hrun, hb', hlength⟩ := grow_spec A h (hfits hgt)
      (Nat.le_trans h.length_le (Nat.le_of_lt hgt)) (Nat.le_refl _)
    have hnil : added = [] := by
      rw [List.length_append, Nat.add_eq_left] at hlength
      exact List.eq_nil_of_length_eq_zero hlength
    rw [hnil, List.append_nil] at hb'
    exact ⟨b', by rw [h.size]; exact hrun, hb'⟩

/-- The part of `resize` that uses the block as it is: bytes of the room may be added. -/
lemma resizeHere_spec {f a : ℕ} {gap l room : List UInt8} (hf : Place f) (ha : 0 < a)
    (hle : a + (gap.length + l.length + room.length) ≤ 2 ^ 64) (size : ℕ)
    (hsize : gap.length + size < gap.length + l.length + room.length) :
    ∃ b' added, terminate { laid f a gap l room with bufferEnd := a + gap.length + size } = some b'
      ∧ b'.Holds (l.take size ++ added) ∧ (l.take size ++ added).length = size := by
  obtain ⟨content, room', hsplit, hcontent⟩ :=
    exists_split (show size ≤ (l ++ room).length by rw [List.length_append]; omega)
  have hlength : l.length + room.length = size + room'.length := by
    rw [← hcontent, ← List.length_append, ← List.length_append, hsplit]
  have htake : content = l.take size ++ room.take (size - l.length) := by
    rw [← List.take_append, hsplit, ← hcontent, List.take_left]
  have hlaid : { laid f a gap l room with bufferEnd := a + gap.length + size }
      = laid f a gap content room' :=
    eq_laid rfl (by rw [laid_buffer, List.append_assoc, hsplit, List.append_assoc]) rfl rfl
      (by rw [hcontent]) (by rw [hcontent]; simp only [laid_capacity]; omega)
  obtain ⟨b', hrun, hb'⟩ := holds_terminate gap content room' hf ha
    (by omega) (by omega)
  exact ⟨b', _, hlaid ▸ hrun, htake ▸ hb', htake ▸ hcontent⟩

/-- The part of `resize` that first moves the bytes to the begin of the block -/
lemma resizeMoved_spec {f a : ℕ} {gap l room : List UInt8} (hf : Place f) (ha : 0 < a)
    (hle : a + (gap.length + l.length + room.length) ≤ 2 ^ 64) (size : ℕ) (hl : l.length ≤ size)
    (hsize : size < gap.length + l.length + room.length) :
    ∃ bytes b' added, MemoryBlock.write ⟨a, gap ++ l ++ room⟩ a l = some ⟨a, bytes⟩
      ∧ terminate { laid f a gap l room with
          buffer := some ⟨a, bytes⟩, bufferStart := a, bufferEnd := a + size } = some b'
      ∧ b'.Holds (l ++ added) ∧ (l ++ added).length = size := by
  obtain ⟨old, rest, hsplit, hold⟩ := exists_split
    (show l.length ≤ (gap ++ l ++ room).length by simp only [List.length_append]; omega)
  have hlength : gap.length + l.length + room.length = l.length + rest.length := by
    have hsum := congrArg List.length hsplit
    simp only [List.length_append] at hsum
    rw [hsum, hold]
  obtain ⟨added, room', rfl, hadded⟩ := exists_split (show size - l.length ≤ rest.length by omega)
  rw [List.length_append] at hlength
  have hsum : (l ++ added).length = size := by
    rw [List.length_append]
    omega
  have hlaid : { laid f a gap l room with
      buffer := some ⟨a, l ++ (added ++ room')⟩, bufferStart := a, bufferEnd := a + size }
      = laid f a [] (l ++ added) room' :=
    eq_laid rfl (by rw [List.nil_append, List.append_assoc]) rfl rfl (by rw [hsum]; rfl)
      (by rw [hsum]; simp only [laid_capacity, List.length_nil]; omega)
  obtain ⟨b', hrun, hb'⟩ := holds_terminate [] (l ++ added) room' hf ha
    (by omega) (by rw [hsum, List.length_nil]; omega)
  exact ⟨_, b', added, MemoryBlock.write_front hsplit hold.symm, hlaid ▸ hrun, hb', hsum⟩

lemma resize_spec (A : Allocator) {b : Buffer} {l : List UInt8} (h : b.Holds l) {size : ℕ}
    (hfits : b.ResizeFits size) :
    ∃ b' added, b.resize A size = some b' ∧ b'.Holds (l.take size ++ added)
      ∧ (l.take size ++ added).length = size := by
  rw [resize]
  rw [ResizeFits] at hfits
  split_ifs with hgrow
  · rw [if_pos hgrow] at hfits
    rw [List.take_of_length_le (Nat.le_trans h.length_le (Nat.le_of_lt hgrow))]
    exact grow_spec A h hfits (Nat.le_refl _) (Nat.le_trans h.length_le (Nat.le_of_lt hgrow))
  · rw [if_neg hgrow] at hfits
    have hsize := Nat.not_lt.mp hgrow
    cases h with
    | null hf =>
      obtain rfl : size = 0 := Nat.le_zero.mp hsize
      exact ⟨_, [], rfl, .null hf, rfl⟩
    | @laid f a gap l room hf ha hroom hle =>
      rw [laid_capacity] at hsize
      have hlt : a + gap.length + size < 2 ^ 64 := hfits rfl
      have hstart : wrapAdd (laid f a gap l room).bufferStart size = a + gap.length + size :=
        wrapAdd_eq hlt
      have hend : wrapAdd a (laid f a gap l room).capacity
          = a + (gap.length + l.length + room.length - 1) :=
        wrapAdd_eq (by rw [laid_capacity]; omega)
      simp only [laid_buffer, hstart, hend]
      split_ifs with hhere
      · exact resizeHere_spec hf ha hle size (by omega)
      · obtain ⟨bytes, b', added, hwrite, hrun, hb', hlength⟩ :=
          resizeMoved_spec hf ha hle size (by omega) (by omega)
        have hread : MemoryBlock.read ⟨a, gap ++ l ++ room⟩ (laid f a gap l room).bufferStart
            (laid f a gap l room).size = some l := laid_content hle hroom
        have hmoved : wrapAdd a size = a + size := wrapAdd_eq (by omega)
        rw [List.take_of_length_le (by omega)]
        refine ⟨b', added, ?_, hb', hlength⟩
        simp only [hread, hwrite, hmoved, Option.bind_eq_bind, Option.bind_some]
        exact hrun

/-- The last bytes of a `Buffer` are written. -/
lemma Holds.writeBack {b : Buffer} {l old data : List UInt8} (h : b.Holds (l ++ old))
    (hlength : data.length = old.length) :
    ∃ b', b.write (wrapSub b.bufferEnd data.length) data = some b' ∧ b'.Holds (l ++ data) := by
  generalize hc : l ++ old = c at h
  cases h with
  | null hf =>
    obtain ⟨rfl, rfl⟩ := List.append_eq_nil_iff.mp hc
    obtain rfl := List.eq_nil_of_length_eq_zero hlength
    exact ⟨_, rfl, .null hf⟩
  | @laid f a gap _ room hf ha hroom hle =>
    subst hc
    rw [List.length_append] at hle
    have hstart : wrapSub (Buffer.laid f a gap (l ++ old) room).bufferEnd data.length
        = a + (gap ++ l).length := by
      rw [laid_bufferEnd, List.length_append, List.length_append,
        wrapSub_eq (by omega) (by omega)]
      omega
    have hsplit : (⟨a, gap ++ (l ++ old) ++ room⟩ : MemoryBlock).bytes
        = gap ++ l ++ old ++ room := by
      simp only [List.append_assoc]
    have hwrite := MemoryBlock.write_split hsplit hstart hlength
    refine ⟨Buffer.laid f a gap (l ++ data) room, ?_, .laid hf ha hroom ?_⟩
    · simp only [write, laid_buffer, hwrite, Option.bind_eq_bind, Option.bind_some,
        Option.some.injEq]
      refine eq_laid rfl (by simp only [List.append_assoc]) rfl rfl ?_ ?_
      · rw [laid_bufferEnd, List.length_append, List.length_append, hlength]
      · rw [laid_capacity, List.length_append, List.length_append, hlength]
        omega
    · rw [List.length_append, hlength]
      exact hle

lemma append_spec (A : Allocator) {b : Buffer} {l : List UInt8} (data : List UInt8)
    (h : b.Holds l) (hlt : l.length + data.length < 2 ^ 64)
    (hfits : b.ResizeFits (b.size + data.length)) :
    ∃ b', b.append A data = some b' ∧ b'.Holds (l ++ data) := by
  rw [h.size] at hfits
  obtain ⟨b₁, added, hresize, hb₁, hlength⟩ := resize_spec A h hfits
  rw [List.take_of_length_le (Nat.le_add_right _ _)] at hb₁ hlength
  rw [List.length_append, Nat.add_left_cancel_iff] at hlength
  obtain ⟨b₂, hwrite, hb₂⟩ := hb₁.writeBack hlength.symm
  obtain ⟨b₃, hterminate, hb₃⟩ := hb₂.terminate
  refine ⟨b₃, ?_, hb₃⟩
  rw [append, h.size, wrapAdd_eq hlt]
  simp only [hresize, hwrite, hterminate, Option.bind_eq_bind, Option.bind_some]

lemma prependNew_spec (A : Allocator) {b : Buffer} {l : List UInt8} (data : List UInt8)
    (h : b.Holds l) (hlt : data.length + l.length + 1 < 2 ^ 64) :
    ∃ b', b.prependNew A data = some b' ∧ b'.Holds (data ++ l) := by
  obtain ⟨ha, hle, hlength⟩ := new_spec A hlt
  generalize hk : A.new (data.length + l.length + 1) = k at ha hle hlength
  obtain ⟨old, rest, hsplit, hold⟩ := exists_split (show data.length ≤ k.bytes.length by omega)
  obtain ⟨old', room, rfl, hold'⟩ := exists_split (show l.length ≤ rest.length by
    rw [hsplit, List.length_append] at hlength
    omega)
  simp only [hsplit, List.length_append] at hlength hle
  have hread : b.read b.bufferStart b.size = some l := h.content
  have hdata : k.write k.address data = some ⟨k.address, data ++ old' ++ room⟩ := by
    rw [MemoryBlock.write_front hsplit hold.symm, List.append_assoc]
  have hback : MemoryBlock.write ⟨k.address, data ++ old' ++ room⟩ (wrapAdd k.address data.length) l
      = some ⟨k.address, data ++ l ++ room⟩ :=
    MemoryBlock.write_split rfl (wrapAdd_eq (by omega)) hold'.symm
  have hlaid : { b with
      buffer := some ⟨k.address, data ++ l ++ room⟩, bufferStart := k.address,
      bufferEnd := wrapAdd k.address (data.length + l.length), capacity := data.length + l.length }
      = laid b.capacityField k.address [] (data ++ l) room :=
    eq_laid rfl rfl h.attached rfl
      (by rw [wrapAdd_eq (by omega), List.length_append]; rfl)
      (by simp only [List.length_append, List.length_nil]; omega)
  refine ⟨laid b.capacityField k.address [] (data ++ l) room, ?_, .laid h.place ha (by omega) ?_⟩
  · have hrequired : wrapAdd data.length l.length = data.length + l.length :=
      wrapAdd_eq (by omega)
    rw [h.size] at hread
    rw [prependNew, h.size, hrequired, wrapAdd_eq hlt, hk]
    simp only [hread, hdata, hback, Option.bind_eq_bind, Option.bind_some, hlaid]
  · simp only [List.length_append, List.length_nil]
    omega

/-- The part of `prepend` that writes to the gap -/
lemma prependGap_spec {f a : ℕ} {gap l room data : List UInt8} (hf : Place f) (ha : 0 < a)
    (hroom : 0 < room.length) (hle : a + (gap.length + l.length + room.length) ≤ 2 ^ 64)
    (hgap : data.length ≤ gap.length) :
    ∃ b', write { laid f a gap l room with bufferStart := a + gap.length - data.length }
        (a + gap.length - data.length) data = some b' ∧ b'.Holds (data ++ l) := by
  obtain ⟨gap', old, rfl, hlength⟩ :=
    exists_split (show gap.length - data.length ≤ gap.length from Nat.sub_le ..)
  rw [List.length_append] at hlength hgap hle
  have hsplit : (⟨a, gap' ++ old ++ l ++ room⟩ : MemoryBlock).bytes = gap' ++ old ++ (l ++ room) :=
    List.append_assoc ..
  have hstart : a + (gap' ++ old).length - data.length = a + gap'.length := by
    rw [List.length_append]
    omega
  have hold : data.length = old.length := by omega
  have hwrite := MemoryBlock.write_split hsplit hstart hold
  refine ⟨laid f a gap' (data ++ l) room, ?_, .laid hf ha hroom ?_⟩
  · simp only [write, laid_buffer, hwrite, Option.bind_eq_bind, Option.bind_some, Option.some.injEq]
    refine eq_laid rfl (by simp only [List.append_assoc]) rfl hstart ?_ ?_
    · simp only [laid_bufferEnd, List.length_append]
      omega
    · simp only [laid_capacity, List.length_append]
      omega
  · rw [List.length_append]
    omega

/-- The part of `prepend` that moves the bytes within the block -/
lemma prependMoved_spec {f a : ℕ} {gap l room : List UInt8} (data : List UInt8) (hf : Place f)
    (ha : 0 < a) (hle : a + (gap.length + l.length + room.length) ≤ 2 ^ 64)
    (hdata : data.length + l.length < gap.length + l.length + room.length) :
    ∃ bytes bytes', MemoryBlock.write ⟨a, gap ++ l ++ room⟩ (a + data.length) l = some ⟨a, bytes⟩
      ∧ MemoryBlock.write ⟨a, bytes⟩ a data = some ⟨a, bytes'⟩
      ∧ Holds { laid f a gap l room with
        buffer := some ⟨a, bytes'⟩, bufferStart := a, bufferEnd := a + (data.length + l.length) }
        (data ++ l) := by
  obtain ⟨old, rest, hsplit, hold⟩ := exists_split
    (show data.length ≤ (gap ++ l ++ room).length by simp only [List.length_append]; omega)
  have hsum := congrArg List.length hsplit
  simp only [List.length_append] at hsum
  obtain ⟨old', room', rfl, hold'⟩ := exists_split (show l.length ≤ rest.length by omega)
  rw [List.length_append] at hsum
  have hmove : MemoryBlock.write ⟨a, gap ++ l ++ room⟩ (a + data.length) l
      = some ⟨a, old ++ l ++ room'⟩ :=
    MemoryBlock.write_split (by rw [hsplit, List.append_assoc]) (by rw [hold]) hold'.symm
  have hcopy : MemoryBlock.write ⟨a, old ++ l ++ room'⟩ a data = some ⟨a, data ++ (l ++ room')⟩ :=
    MemoryBlock.write_front (List.append_assoc ..) hold.symm
  have hlaid : { laid f a gap l room with
      buffer := some ⟨a, data ++ (l ++ room')⟩, bufferStart := a,
      bufferEnd := a + (data.length + l.length) } = laid f a [] (data ++ l) room' :=
    eq_laid rfl (by rw [List.nil_append, List.append_assoc]) rfl rfl
      (by rw [List.length_append]; rfl)
      (by simp only [laid_capacity, List.length_append, List.length_nil]; omega)
  refine ⟨_, _, hmove, hcopy, hlaid ▸ .laid hf ha (by omega) ?_⟩
  simp only [List.length_append, List.length_nil]
  omega

lemma prepend_spec (A : Allocator) {b : Buffer} {l data : List UInt8} (h : b.Holds l)
    (hlt : data.length + l.length + 1 < 2 ^ 64) :
    ∃ b', b.prepend A data = some b' ∧ b'.Holds (data ++ l) := by
  have hnew := prependNew_spec A data h hlt
  cases h with
  | null hf => exact hnew
  | @laid f a gap l room hf ha hroom hle =>
    have hgap := laid_gap (f := f) hle hroom
    have hrequired : wrapAdd data.length (laid f a gap l room).size = data.length + l.length := by
      rw [laid_size hle hroom, wrapAdd_eq (by omega)]
    rw [prepend]
    simp only [laid_buffer, hgap, hrequired]
    split_ifs with hin hhere
    · have hstart : wrapSub (laid f a gap l room).bufferStart data.length
          = a + gap.length - data.length := wrapSub_eq (by rw [laid_bufferStart]; omega)
        (Nat.le_trans hin (Nat.le_add_left _ _))
      simp only [hstart]
      exact prependGap_spec hf ha hroom hle hin
    · rw [laid_capacity] at hhere
      obtain ⟨bytes, bytes', hmove, hcopy, hdone⟩ :=
        prependMoved_spec data hf ha hle (by omega)
      have hread : MemoryBlock.read ⟨a, gap ++ l ++ room⟩ (laid f a gap l room).bufferStart
          (laid f a gap l room).size = some l := laid_content hle hroom
      have hplace : wrapAdd a data.length = a + data.length := wrapAdd_eq (by omega)
      have hend : wrapAdd a (data.length + l.length) = a + (data.length + l.length) :=
        wrapAdd_eq (by omega)
      refine ⟨_, ?_, hdone⟩
      simp only [hread, hplace, hmove, hcopy, hend, Option.bind_eq_bind, Option.bind_some]
    · exact hnew

/-- All bytes of the block are room. -/
lemma holds_clear {f a : ℕ} {gap l room : List UInt8} (hf : Place f) (ha : 0 < a)
    (hroom : 0 < room.length) (hle : a + (gap.length + l.length + room.length) ≤ 2 ^ 64) :
    Holds { laid f a gap l room with bufferStart := a, bufferEnd := a } [] := by
  have hlaid : { laid f a gap l room with bufferStart := a, bufferEnd := a }
      = laid f a [] [] (gap ++ l ++ room) :=
    eq_laid rfl rfl rfl rfl rfl
      (by simp only [laid_capacity, List.length_append, List.length_nil]; omega)
  rw [hlaid]
  refine .laid hf ha ?_ ?_
  · simp only [List.length_append]
    omega
  · simp only [List.length_append, List.length_nil]
    omega

lemma clear_spec {b : Buffer} {l : List UInt8} (h : b.Holds l) :
    ∃ b', b.clear = some b' ∧ b'.Holds [] := by
  cases h with
  | null hf => exact ⟨_, rfl, .null hf⟩
  | laid hf ha hroom hle => exact (holds_clear hf ha hroom hle).terminate

lemma free_spec {b : Buffer} {l : List UInt8} (h : b.Holds l) : b.free.Holds [] := by
  have hnull : b.free = .null b.capacityField := by
    rw [free, h.attached]
    rfl
  exact hnull ▸ .null h.place

/-- Bytes at the front go to the gap, or all bytes to the room. -/
lemma removeFront_spec {b : Buffer} {l : List UInt8} (h : b.Holds l) {size : ℕ}
    (hfits : b.bufferStart + size < 2 ^ 64) : (b.removeFront size).Holds (l.drop size) := by
  rw [removeFront, wrapAdd_eq hfits]
  cases h with
  | @null f hf =>
    have hge : (null f).bufferStart + size ≥ (null f).bufferEnd := Nat.le_add_right _ _
    simp only [if_pos hge, List.drop_nil]
    exact .null hf
  | @laid f a gap l room hf ha hroom hle =>
    split_ifs with hall
    · have hsize : l.length ≤ size := Nat.le_of_add_le_add_left hall
      rw [List.drop_eq_nil_of_le hsize]
      exact holds_clear hf ha hroom hle
    · have hsize : size < l.length := Nat.lt_of_add_lt_add_left (Nat.not_le.mp hall)
      obtain ⟨front, rest, rfl, rfl⟩ := exists_split (Nat.le_of_lt hsize)
      rw [List.length_append] at hle
      have hlaid : { laid f a gap (front ++ rest) room with
          bufferStart := a + gap.length + front.length }
          = laid f a (gap ++ front) rest room := by
        refine eq_laid rfl (by simp only [laid_buffer, List.append_assoc]) rfl ?_ ?_ ?_
        · rw [List.length_append, Nat.add_assoc]
        · simp only [laid_bufferEnd, List.length_append]
          omega
        · simp only [laid_capacity, List.length_append]
          omega
      rw [List.drop_left]
      refine hlaid ▸ .laid hf ha hroom ?_
      rw [List.length_append]
      omega

/-- Bytes at the end go to the room, or all bytes. -/
lemma removeBack_spec {b : Buffer} {l : List UInt8} (h : b.Holds l) {size : ℕ}
    (hfits : b.bufferStart + size < 2 ^ 64) :
    ∃ b', b.removeBack size = some b' ∧ b'.Holds (l.take (l.length - size)) := by
  rw [removeBack, wrapAdd_eq hfits]
  cases h with
  | @null f hf =>
    have hge : (null f).bufferStart + size ≥ (null f).bufferEnd := Nat.le_add_right _ _
    rw [if_pos hge, List.take_nil]
    exact (Holds.null hf).terminate
  | @laid f a gap l room hf ha hroom hle =>
    split_ifs with hall
    · have hsize : l.length ≤ size := Nat.le_of_add_le_add_left hall
      rw [Nat.sub_eq_zero_of_le hsize, List.take_zero]
      exact (holds_clear hf ha hroom hle).terminate
    · have hsize : size < l.length := Nat.lt_of_add_lt_add_left (Nat.not_le.mp hall)
      have hend : wrapSub (laid f a gap l room).bufferEnd size
          = a + gap.length + (l.length - size) := by
        rw [laid_bufferEnd, wrapSub_eq (by omega) (by omega)]
        omega
      obtain ⟨b', added, hrun, hb', hlength⟩ :=
        resizeHere_spec hf ha hle (l.length - size) (by omega)
      have hnil : added = [] := by
        rw [List.length_append, List.length_take_of_le (Nat.sub_le ..), Nat.add_eq_left]
          at hlength
        exact List.eq_nil_of_length_eq_zero hlength
      rw [hnil, List.append_nil] at hb'
      exact ⟨b', by rw [hend]; exact hrun, hb'⟩

lemma Holds.isEmpty {b : Buffer} {l : List UInt8} (h : b.Holds l) : b.isEmpty = l.isEmpty := by
  cases h with
  | null hf => simp [Buffer.isEmpty, Buffer.null]
  | laid hf ha hroom hle =>
    rw [Buffer.isEmpty, laid_bufferStart, laid_bufferEnd]
    cases l with
    | nil => simp
    | cons c l => simp

/-! ## Where the block is -/

/-- The block of a `Buffer` ends at an address, or before it. -/
def EndsBy (b : Buffer) (limit : ℕ) : Prop :=
  ∀ k ∈ b.buffer, k.address + k.bytes.length ≤ limit

/-- A block that stays, or for which there was room, still does. -/
lemma EndsBy.moves {A : Allocator} {r : Option ℕ} {b b' : Buffer} {limit : ℕ}
    (hb : b.EndsBy limit) (hroom : ∀ n ∈ r, A.address n + n ≤ limit) (h : Moves A r b b') :
    b'.EndsBy limit := by
  intro k hk
  have hplace : (k.address, k.bytes.length) ∈ b'.blockPlace := by
    rw [blockPlace, Option.mem_def.mp hk]
    rfl
  rcases h.2 _ hplace with hold | ⟨n, hn, hnew⟩
  · obtain ⟨k₀, hk₀, heq⟩ := Option.map_eq_some_iff.mp hold
    obtain ⟨haddr, hlength⟩ := Prod.mk.inj heq
    rw [← haddr, ← hlength]
    exact hb k₀ hk₀
  · obtain ⟨haddr, hlength⟩ := Prod.mk.inj hnew
    rw [haddr, hlength]
    exact hroom n hn

lemma EndsBy.append {A : Allocator} {b b' : Buffer} {data : List UInt8} {limit : ℕ}
    (hb : b.EndsBy limit) (hroom : A.HasRoom (b.size + data.length + 1) limit)
    (h : b.append A data = some b') : b'.EndsBy limit := by
  refine hb.moves (fun n hn => hroom n ?_) (moves_append h)
  rw [request] at hn
  split_ifs at hn
  · obtain rfl := Option.some_inj.mp hn
    exact Nat.le_trans (Nat.mod_le _ _) (Nat.succ_le_succ (Nat.mod_le _ _))
  · exact absurd hn.symm (Option.some_ne_none n)

/-- **`append` in the lower half** of the addresses, where there is room for another block -/
lemma append_low {A : Allocator} {b : Buffer} {l : List UInt8} (data : List UInt8) (h : b.Holds l)
    (hlow : b.EndsBy (2 ^ 63)) (hroom : A.HasRoom (l.length + data.length + 1) (2 ^ 63)) :
    ∃ b', b.append A data = some b' ∧ b'.Holds (l ++ data) ∧ b'.EndsBy (2 ^ 63) := by
  have hlast := hroom _ (Nat.le_refl _)
  have hfits : b.ResizeFits (b.size + data.length) := by
    rw [ResizeFits, h.size]
    split_ifs with hgrow
    · omega
    · intro _
      cases h with
      | null hf => exact absurd ‹_› Bool.false_ne_true
      | @laid f a gap l room hf ha hpos hle =>
        have hend : a + (gap ++ l ++ room).length ≤ 2 ^ 63 := hlow _ rfl
        rw [List.length_append, List.length_append] at hend
        rw [laid_bufferStart]
        omega
  obtain ⟨b', hrun, hb'⟩ := append_spec A data h (by omega) hfits
  rw [← h.size] at hroom
  exact ⟨b', hrun, hb', hlow.append hroom hrun⟩

lemma removeFront_buffer (b : Buffer) (size : ℕ) : (b.removeFront size).buffer = b.buffer := by
  rw [removeFront]
  dsimp only
  split_ifs
  · rfl
  · rfl

end Nstd.Buffer
