import Nstd.Container.BufferWindow

/-!
# `attach`

* `AttachOp`, `AttachOp.run` — the operations, also those that give a `Buffer` other memory.
* `Kept` — the terminator is not written to the object.
* `WindowFits`, `AttachOp.Fits` — when an operation does to the bytes what it is for.
* `step_window`, `step_window_broken` — an operation on a `Buffer` without a block.
* **`attach_refines`** — in every run whose operations fit, the `Buffer` is a list of bytes, and
  they stay in its block or in what was attached; an operation that does not fit breaks it.
-/

namespace Nstd.Buffer

/-- Operations, `attach`, and `swap` with another `Buffer` -/
inductive AttachOp
  | own (op : Op)
  | attach (data : MemoryBlock)
  | swap (other : Buffer)

/-- One operation.  `swap` takes all fields but the place of the object. -/
def AttachOp.run (A : Allocator) : Option Buffer → AttachOp → Option Buffer
  | s, .own op => op.run A s
  | some b, .attach data => some (b.attach data)
  | some b, .swap other => some { other with capacityField := b.capacityField }
  | none, _ => none

/-- What an operation does to a list of bytes -/
def AttachOp.Spec (l : List UInt8) : AttachOp → List UInt8 → Prop
  | .own op, l' => Buffer.Spec l op l'
  | .attach data, l' => l' = data.bytes
  | .swap other, l' => other.content = some l'

/-- What a program has to see to: memory that is attached is not in the `Buffer` itself, also when it
    comes from another one. -/
def AttachOp.Allowed : Option Buffer → AttachOp → Prop
  | s, .own op => Buffer.Allowed s op
  | some b, .attach data => Beside data b ∧ data.address + data.bytes.length < 2 ^ 64
  | some b, .swap other => (∃ l, Sound other l)
      ∧ (other.buffer = none → ∀ k ∈ other.attached, Apart k b.capacityField 8)
  | none, _ => False

/-- The terminator, where an operation writes one, was not written to the object. -/
def Kept (b' : Buffer) : AttachOp → Prop
  | .own (.append _) => b'.buffer = none → b'.bufferEnd ≠ b'.capacityField
  | .own (.removeBack _) => b'.buffer = none → b'.bufferEnd ≠ b'.capacityField
  | _ => True

/-- **When an operation is right on a `Buffer` without a block**, which has the capacity it had when it
    was attached -/
def WindowFits (b : Buffer) : Op → Prop
  | .assign data => data.bytes.length > b.capacity ∨ b.content = some data.bytes
  | .prepend data => data.bytes.length + b.size + 1 < 2 ^ 64
  | .append data => (b.size + data.bytes.length > b.capacity
        ∧ b.size + data.bytes.length + 1 < 2 ^ 64)
      ∨ (data.bytes = [] ∧ b.InAttached b.bufferEnd)
  | .resize size => if size > b.capacity then b.size ≤ size + 1 ∧ size + 1 < 2 ^ 64
      else size = b.size
  | .reserve capacity => capacity > b.capacity → b.size ≤ capacity ∧ capacity + 1 < 2 ^ 64
  | .removeFront size => b.bufferStart + size < 2 ^ 64
  | .removeBack size => size < b.size ∧ (0 < size ∨ b.InAttached b.bufferEnd)
  | _ => True

/-- **When an operation is right** -/
def AttachOp.Fits : Option Buffer → AttachOp → Prop
  | none, .own op => Buffer.Fits none op
  | some b, .own op => if b.buffer.isSome then Buffer.Fits (some b) op else b.WindowFits op
  | _, _ => True

/-! ## Without a block: an operation that fits -/

/-- A part of the bytes of a `Buffer` without a block -/
lemma Window.sub {b : Buffer} (xs l ys : List UInt8) (h : b.Window (xs ++ l ++ ys)) :
    Window { b with
      bufferStart := b.bufferStart + xs.length
      bufferEnd := b.bufferStart + xs.length + l.length } l := by
  have hlength := h.length
  have hlt := h.bound
  rw [List.length_append, List.length_append] at hlength
  refine ⟨h.buffer, h.place, rfl, by simp only; omega, ?_⟩
  rcases h.bytes with hnil | ⟨k, gap, rest, hk, hpos, hapart, hbytes, hstart⟩
  · rw [List.append_eq_nil_iff, List.append_eq_nil_iff] at hnil
    exact Or.inl hnil.1.2
  · refine Or.inr ⟨k, gap ++ xs, ys ++ rest, hk, hpos, hapart, ?_, ?_⟩
    · rw [hbytes]
      simp only [List.append_assoc]
    · simp only [hstart, List.length_append, Nat.add_assoc]

namespace Window

variable {b : Buffer} {l : List UInt8}

lemma none_pointers (h : b.Window l) : Window { b with
    bufferStart := b.capacityField, bufferEnd := b.capacityField } [] := by
  have hplace := h.place
  exact ⟨h.buffer, hplace, rfl, by have := hplace.2; simp only; omega, Or.inl rfl⟩

lemma assign_spec (A : Allocator) (h : b.Window l) {data : List UInt8}
    (hdata : data.length + 1 < 2 ^ 64) (hfits : data.length > b.capacity ∨ b.content = some data) :
    ∃ b', b.assign A data = some b' ∧ b'.Sound data := by
  rw [assign]
  split_ifs with hgrow
  · obtain ⟨ha, hle, hlength⟩ := new_spec A hdata
    have hplace : Place ({ b with capacity := data.length } : Buffer).detached.capacityField :=
      h.place
    obtain ⟨c, hrun, hc⟩ := fill_spec (b := ({ b with capacity := data.length } : Buffer).detached)
      hplace rfl ha hle hlength.symm (Nat.le_refl _)
    rw [fill_detached, Option.map_eq_some_iff] at hrun
    obtain ⟨b', hb', rfl⟩ := hrun
    exact ⟨b', by rw [wrapAdd_eq hdata]; exact hb', .of_detached hc⟩
  · have hl : l = data :=
      Option.some_inj.mp (h.content_eq.symm.trans (hfits.resolve_left hgrow))
    rw [h.buffer]
    exact ⟨b, rfl, hl ▸ .window h⟩

/-- The bytes that are added to a new block are written. -/
lemma append_grow (A : Allocator) (h : b.Window l) {data : List UInt8}
    (hgrow : l.length + data.length > b.capacity) (hlt : l.length + data.length + 1 < 2 ^ 64) :
    ∃ b', b.append A data = some b' ∧ b'.buffer.isSome ∧ b'.detached.Holds (l ++ data) := by
  obtain ⟨b₁, added, hrun, hb₁, hc₁, hlength⟩ :=
    h.grow_spec A hlt (Nat.le_refl _) (Nat.le_add_right l.length data.length)
  rw [List.length_append, Nat.add_left_cancel_iff] at hlength
  have hresize : b.resize A (wrapAdd b.size data.length) = some b₁ := by
    rw [h.size_eq, wrapAdd_eq (by omega), resize, if_pos hgrow, hrun]
  obtain ⟨c₂, hwrite, hc₂⟩ := hc₁.writeBack hlength.symm
  rw [write_detached hb₁, Option.map_eq_some_iff] at hwrite
  obtain ⟨b₂, hwrite, rfl⟩ := hwrite
  have hb₂ : b₂.buffer.isSome := (write_pointers hwrite).2.2 ▸ hb₁
  obtain ⟨c₃, hterminate, hc₃⟩ := hc₂.terminate
  rw [terminate_detached hb₂, Option.map_eq_some_iff] at hterminate
  obtain ⟨b₃, hterminate, rfl⟩ := hterminate
  have hwrite' : b₁.write (wrapSub b₁.bufferEnd data.length) data = some b₂ := hwrite
  refine ⟨b₃, ?_, terminate_isSome hb₂ hterminate, hc₃⟩
  rw [append, hresize]
  simp only [Option.bind_eq_bind, Option.bind_some, hwrite', hterminate]

/-- Nothing is appended, and a terminator is written to what was attached. -/
lemma append_nil (A : Allocator) (h : b.Window l) (hle : l.length ≤ b.capacity)
    (hin : b.InAttached b.bufferEnd) :
    ∃ b', b.append A [] = some b' ∧ b'.Window l ∧ b'.bufferEnd ≠ b'.capacityField := by
  obtain ⟨b', hrun, hb', hfield⟩ := h.terminate_spec hin
  have hresize : b.resize A (wrapAdd b.size ([] : List UInt8).length) = some b := by
    rw [List.length_nil, h.size_eq, wrapAdd_eq (by have := h.lt; omega), Nat.add_zero, resize,
      if_neg (Nat.not_lt.mpr hle), h.buffer]
  refine ⟨b', ?_, hb', ?_⟩
  · rw [append, hresize]
    simp only [Option.bind_eq_bind, Option.bind_some, Buffer.write_nil, hrun]
  · rw [(terminate_pointers hrun).2.1, hfield]
    exact hin.1

lemma append_spec (A : Allocator) (h : b.Window l) {data : List UInt8}
    (hfits : b.size + data.length > b.capacity ∧ b.size + data.length + 1 < 2 ^ 64
      ∨ data = [] ∧ b.InAttached b.bufferEnd) :
    ∃ b', b.append A data = some b' ∧ b'.Sound (l ++ data)
      ∧ (b'.buffer = none → b'.bufferEnd ≠ b'.capacityField) := by
  rw [h.size_eq] at hfits
  have hlt := h.lt
  by_cases hgrow : l.length + data.length > b.capacity
  · have hsum : l.length + data.length + 1 < 2 ^ 64 := by
      rcases hfits with ⟨-, hsum⟩ | ⟨rfl, -⟩
      · exact hsum
      · rw [List.length_nil]
        omega
    obtain ⟨b', hrun, hsome, hb'⟩ := h.append_grow A hgrow hsum
    refine ⟨b', hrun, .block hsome hb', fun hnone => ?_⟩
    rw [hnone] at hsome
    exact absurd hsome Bool.false_ne_true
  · obtain ⟨rfl, hin⟩ := hfits.resolve_left (fun h => hgrow h.1)
    obtain ⟨b', hrun, hb', hkept⟩ := h.append_nil A (by rw [List.length_nil] at hgrow; omega) hin
    rw [List.append_nil]
    exact ⟨b', hrun, .window hb', fun _ => hkept⟩

/-- Bytes that just fill a new block lose the last of them to the terminator. -/
lemma grow_short (A : Allocator) (h : b.Window l) {size : ℕ} (hl : l.length = size + 1)
    (hlt : size + 1 < 2 ^ 64) :
    ∃ b', b.grow A size size = some b' ∧ b'.Sound (l.take size) := by
  obtain ⟨ha, hle, hlength⟩ := new_spec A hlt
  generalize hk : A.new (size + 1) = k at ha hle hlength
  have hwrite : k.write k.address l = some ⟨k.address, l⟩ := by
    have hsplit : k.bytes = k.bytes ++ [] := (List.append_nil _).symm
    rw [MemoryBlock.write_front hsplit (hl.trans hlength.symm), List.append_nil]
  have htake : (l.take size).length = size := List.length_take_of_le (by omega)
  have hlaid : { b with
      buffer := some ⟨k.address, l⟩, attached := none, bufferStart := k.address,
      bufferEnd := wrapAdd k.address size, capacity := size }
      = Buffer.laid b.capacityField k.address [] (l.take size) (l.drop size) := by
    refine eq_laid rfl ?_ rfl rfl ?_ ?_
    · rw [List.nil_append, List.take_append_drop]
    · rw [htake]
      exact wrapAdd_eq (by omega)
    · rw [htake, List.length_drop, List.length_nil]
      change size + 1 = _
      omega
  obtain ⟨c, hrun, hc⟩ := holds_terminate (f := b.capacityField) (a := k.address) []
    (l.take size) (l.drop size) h.place ha (by rw [List.length_drop]; omega)
    (by rw [htake, List.length_drop, List.length_nil]; omega)
  rw [← hlaid] at hrun
  have hdetached := terminate_detached (b := { b with
    buffer := some ⟨k.address, l⟩, bufferStart := k.address,
    bufferEnd := wrapAdd k.address size, capacity := size }) rfl
  obtain ⟨b', hb', rfl⟩ := Option.map_eq_some_iff.mp (hdetached.symm.trans hrun)
  refine ⟨b', ?_, .of_detached hc⟩
  have hread : b.read b.bufferStart b.size = some l := h.content_eq
  rw [grow, wrapAdd_eq hlt, hk]
  simp only [hread, hwrite, Option.bind_eq_bind, Option.bind_some, hb']

lemma resize_spec (A : Allocator) (h : b.Window l) {size : ℕ}
    (hfits : if size > b.capacity then b.size ≤ size + 1 ∧ size + 1 < 2 ^ 64 else size = b.size) :
    ∃ b' added, b.resize A size = some b' ∧ b'.Sound (l.take size ++ added)
      ∧ (l.take size ++ added).length = size := by
  rw [h.size_eq] at hfits
  rw [resize]
  split_ifs at hfits ⊢ with hgrow
  · by_cases hl : l.length ≤ size
    · obtain ⟨b', added, hrun, hsome, hb', hlength⟩ := h.grow_spec A hfits.2 (Nat.le_refl _) hl
      rw [List.take_of_length_le hl]
      exact ⟨b', added, hrun, .block hsome hb', hlength⟩
    · obtain ⟨b', hrun, hb'⟩ := h.grow_short A (by omega) hfits.2
      refine ⟨b', [], hrun, ?_, ?_⟩
      · rw [List.append_nil]
        exact hb'
      · rw [List.append_nil, List.length_take_of_le (by omega)]
  · rw [h.buffer, List.take_of_length_le (Nat.le_of_eq hfits.symm)]
    refine ⟨b, [], rfl, ?_, ?_⟩
    · rw [List.append_nil]
      exact .window h
    · rw [List.append_nil, hfits]

lemma reserve_spec (A : Allocator) (h : b.Window l) {capacity : ℕ}
    (hfits : capacity > b.capacity → b.size ≤ capacity ∧ capacity + 1 < 2 ^ 64) :
    ∃ b', b.reserve A capacity = some b' ∧ b'.Sound l := by
  rw [h.size_eq] at hfits
  rw [reserve]
  split_ifs with hle
  · exact ⟨b, rfl, .window h⟩
  · obtain ⟨hl, hlt⟩ := hfits (Nat.not_le.mp hle)
    obtain ⟨b', added, hrun, hsome, hb', hlength⟩ := h.grow_spec A hlt hl (Nat.le_refl _)
    have hnil : added = [] := by
      rw [List.length_append, Nat.add_eq_left] at hlength
      exact List.eq_nil_of_length_eq_zero hlength
    rw [hnil, List.append_nil] at hb'
    exact ⟨b', by rw [h.size_eq]; exact hrun, .block hsome hb'⟩

lemma removeFront_spec (h : b.Window l) {size : ℕ} (hfits : b.bufferStart + size < 2 ^ 64) :
    (b.removeFront size).Window (l.drop size) := by
  have hlength := h.length
  have hhome : b.home = b.capacityField := by rw [home, h.buffer]
  have hhome' : home { b with bufferStart := b.bufferStart + size } = b.capacityField := hhome
  rw [removeFront, wrapAdd_eq hfits]
  simp only [hhome']
  split_ifs with hall
  · rw [List.drop_eq_nil_of_le (by omega)]
    exact h.none_pointers
  · have hsize : size ≤ l.length := by omega
    have hsub := Window.sub (l.take size) (l.drop size) []
      (by rw [List.append_nil, List.take_append_drop]; exact h)
    have hend : b.bufferStart + size + (l.length - size) = b.bufferEnd := by omega
    rwa [List.length_take_of_le hsize, List.length_drop, hend] at hsub

lemma removeBack_spec (h : b.Window l) {size : ℕ}
    (hfits : size < b.size ∧ (0 < size ∨ b.InAttached b.bufferEnd)) :
    ∃ b', b.removeBack size = some b' ∧ b'.Window (l.take (l.length - size))
      ∧ b'.bufferEnd ≠ b'.capacityField := by
  rw [h.size_eq] at hfits
  obtain ⟨hsize, hin⟩ := hfits
  have hlength := h.length
  have hlt := h.bound
  have hend : wrapSub b.bufferEnd size = b.bufferEnd - size := wrapSub_eq hlt (by omega)
  have hsub : Window { b with bufferEnd := b.bufferEnd - size } (l.take (l.length - size)) := by
    have hsub := Window.sub [] (l.take (l.length - size)) (l.drop (l.length - size))
      (by rw [List.nil_append, List.take_append_drop]; exact h)
    have hend : b.bufferStart + (l.length - size) = b.bufferEnd - size := by omega
    rwa [List.length_nil, Nat.add_zero, List.length_take_of_le (Nat.sub_le ..), hend] at hsub
  have hin' : InAttached { b with bufferEnd := b.bufferEnd - size } (b.bufferEnd - size) := by
    rcases Nat.eq_zero_or_pos size with rfl | hpos
    · exact hin.resolve_left (Nat.lt_irrefl 0)
    · rcases h.bytes with rfl | ⟨k, gap, rest, hk, -, hapart, hbytes, hstart⟩
      · exact absurd hsize (Nat.not_lt_zero _)
      · have hlen := congrArg List.length hbytes
        rw [List.length_append, List.length_append] at hlen
        refine ⟨?_, k, hk, by omega, by omega⟩
        rcases hapart with hnil | hbefore | hafter
        · rw [hnil, List.length_nil] at hlen
          omega
        · change b.bufferEnd - size ≠ b.capacityField
          omega
        · change b.bufferEnd - size ≠ b.capacityField
          omega
  obtain ⟨b', hrun, hb', hfield⟩ := hsub.terminate_spec hin'
  refine ⟨b', ?_, hb', ?_⟩
  · rw [removeBack, wrapAdd_eq (by omega), if_neg (by omega), hend, hrun]
  · rw [(terminate_pointers hrun).2.1, hfield]
    exact hin'.1

lemma clear_spec (h : b.Window l) : ∃ b', b.clear = some b' ∧ b'.Window [] := by
  have hlength := h.length
  have hlt := h.bound
  rw [clear, h.buffer]
  exact ⟨_, rfl, rfl, h.place, rfl, by simp only; omega, Or.inl rfl⟩

lemma free_spec (h : b.Window l) : b.free.Window [] :=
  ⟨rfl, h.place, rfl, by have := h.place.2; simp only [free]; omega, Or.inl rfl⟩

end Window

/-! ## Without a block: an operation that does not fit -/

/-- A write does not move the object. -/
lemma write_field {b b' : Buffer} {addr : ℕ} {bytes : List UInt8}
    (h : b.write addr bytes = some b') : b'.capacityField = b.capacityField := by
  rw [write] at h
  split at h
  · obtain ⟨k', -, hb⟩ := Option.bind_eq_some_iff.mp h
    obtain rfl := Option.some_inj.mp hb
    rfl
  · obtain ⟨k', -, hb⟩ := Option.bind_eq_some_iff.mp h
    obtain rfl := Option.some_inj.mp hb
    rfl
  · split_ifs at h
    obtain rfl := Option.some_inj.mp h
    rfl

lemma terminate_field {b b' : Buffer} (h : b.terminate = some b') :
    b'.capacityField = b.capacityField := by
  rw [terminate] at h
  split_ifs at h
  · obtain rfl := Option.some_inj.mp h
    rfl
  · exact write_field h

lemma SamePointers.none {b b' : Buffer} (h : b.SamePointers b') (hb : b.buffer = none) :
    b'.buffer = none := by
  refine Option.not_isSome_iff_eq_none.mp ?_
  rw [h.2.2, hb]
  exact Bool.false_ne_true

/-- A new block that is too short for the bytes -/
lemma grow_long (A : Allocator) {b : Buffer} {l : List UInt8} (h : b.content = some l)
    {capacity : ℕ} (size : ℕ) (hl : capacity + 1 < l.length) (hlt : capacity + 1 < 2 ^ 64) :
    b.grow A capacity size = none := by
  obtain ⟨-, -, hlength⟩ := new_spec A hlt
  have hread : b.read b.bufferStart b.size = some l := h
  rw [grow, wrapAdd_eq hlt]
  simp only [hread, MemoryBlock.write_long (hlength ▸ hl), Option.bind_eq_bind, Option.bind_some,
    Option.bind_none]

/-- A new block that is full has no place for the terminator. -/
lemma grow_full (A : Allocator) {b : Buffer} {l : List UInt8} (h : b.content = some l)
    {capacity : ℕ} (hl : l.length = capacity + 1) (hlt : capacity + 1 < 2 ^ 64) :
    b.grow A capacity l.length = none := by
  obtain ⟨ha, hle, hlength⟩ := new_spec A hlt
  generalize hk : A.new (capacity + 1) = k at ha hle hlength
  have hread : b.read b.bufferStart b.size = some l := h
  have hwrite : k.write k.address l = some ⟨k.address, l⟩ := by
    have hsplit : k.bytes = k.bytes ++ [] := (List.append_nil _).symm
    rw [MemoryBlock.write_front hsplit (hl.trans hlength.symm), List.append_nil]
  have hterminate : MemoryBlock.write ⟨k.address, l⟩ (wrapAdd k.address l.length) [0] = none := by
    rw [MemoryBlock.write, if_neg (List.cons_ne_nil _ _), if_neg]
    simp only [List.length_singleton]
    by_cases hsum : k.address + l.length < 2 ^ 64
    · rw [wrapAdd_eq hsum]
      omega
    · rw [wrapAdd_over (by omega) (by omega) (Nat.le_of_not_lt hsum)]
      omega
  rw [grow, wrapAdd_eq hlt, hk]
  simp only [hread, hwrite, Option.bind_eq_bind, Option.bind_some, terminate, Option.isNone_some,
    Bool.false_eq_true, false_and, if_false, write, hterminate, Option.bind_none]

namespace Window

variable {b : Buffer} {l : List UInt8}

lemma prependNew_none (A : Allocator) (h : b.Window l) {data : List UInt8}
    (hdata : data.length + 1 < 2 ^ 64) (hfits : ¬ data.length + b.size + 1 < 2 ^ 64) :
    b.prependNew A data = none := by
  have hl := h.lt
  rw [h.size_eq] at hfits
  have hshort : wrapAdd (wrapAdd data.length b.size) 1 < data.length := by
    rw [h.size_eq, wrapAdd, wrapAdd]
    omega
  have hlength : (A.new (wrapAdd (wrapAdd data.length b.size) 1)).bytes.length
      = wrapAdd (wrapAdd data.length b.size) 1 := A.bytes_length _
  rw [prependNew]
  simp only [MemoryBlock.write_long (hlength.symm ▸ hshort), Option.bind_eq_bind, Option.bind_none]

/-- A `resize` without a new block does nothing. -/
lemma resize_le (A : Allocator) (h : b.Window l) {size : ℕ} (hle : ¬ size > b.capacity) :
    b.resize A size = some b := by
  rw [resize, if_neg hle, h.buffer]

lemma resize_broken (A : Allocator) (h : b.Window l) {size : ℕ} (hsize : size < 2 ^ 64)
    (hfits : ¬ if size > b.capacity then b.size ≤ size + 1 ∧ size + 1 < 2 ^ 64 else size = b.size)
    {b' : Buffer} (hrun : b.resize A size = some b') {l' : List UInt8}
    (hcontent : b'.content = some l') : l'.length ≠ size := by
  rw [h.size_eq] at hfits
  split_ifs at hfits with hgrow
  · rw [resize, if_pos hgrow] at hrun
    by_cases hlt : size + 1 < 2 ^ 64
    · rw [grow_long A h.content_eq size (by omega) hlt] at hrun
      exact absurd hrun.symm (Option.some_ne_none b')
    · rw [grow_none A hsize (Nat.le_of_not_lt hlt)] at hrun
      exact absurd hrun.symm (Option.some_ne_none b')
  · obtain rfl := Option.some_inj.mp ((h.resize_le A hgrow).symm.trans hrun)
    obtain rfl := Option.some_inj.mp (h.content_eq.symm.trans hcontent)
    exact fun heq => hfits heq.symm

lemma reserve_none (A : Allocator) (h : b.Window l) {capacity : ℕ} (hcapacity : capacity < 2 ^ 64)
    (hfits : ¬ (capacity > b.capacity → b.size ≤ capacity ∧ capacity + 1 < 2 ^ 64)) :
    b.reserve A capacity = none := by
  obtain ⟨hgrow, hshort⟩ := Classical.not_imp.mp hfits
  rw [h.size_eq] at hshort
  rw [reserve, if_neg (Nat.not_le.mpr hgrow), h.size_eq]
  by_cases hlt : capacity + 1 < 2 ^ 64
  · by_cases hl : l.length = capacity + 1
    · exact grow_full A h.content_eq hl hlt
    · exact grow_long A h.content_eq _ (by omega) hlt
  · exact grow_none A hcapacity (Nat.le_of_not_lt hlt)

/-- What is appended without a new block is not behind the bytes, and the terminator may be outside
    of what was attached. -/
lemma append_broken (A : Allocator) (h : b.Window l) {data : List UInt8}
    (hdata : data.length + 1 < 2 ^ 64)
    (hfits : ¬ (b.size + data.length > b.capacity ∧ b.size + data.length + 1 < 2 ^ 64
      ∨ data = [] ∧ b.InAttached b.bufferEnd))
    {b' : Buffer} (hrun : b.append A data = some b') (hcontent : b'.content = some (l ++ data)) :
    b'.buffer = none ∧ b'.bufferEnd = b'.capacityField := by
  have hl := h.lt
  rw [h.size_eq] at hfits
  rw [append, h.size_eq] at hrun
  obtain ⟨b₁, hresize, hrun⟩ := Option.bind_eq_some_iff.mp hrun
  obtain ⟨b₂, hwrite, hterminate⟩ := Option.bind_eq_some_iff.mp hrun
  by_cases hgrow : wrapAdd l.length data.length > b.capacity
  · have hnone : b.grow A (wrapAdd l.length data.length) (wrapAdd l.length data.length) = none := by
      by_cases hsum : l.length + data.length < 2 ^ 64
      · rw [wrapAdd_eq hsum] at hgrow ⊢
        exact grow_none A hsum (Nat.le_of_not_lt fun hlt => hfits (Or.inl ⟨hgrow, hlt⟩))
      · rw [wrapAdd_over (by omega) (by omega) (Nat.le_of_not_lt hsum)]
        exact grow_long A h.content_eq _ (by omega) (by omega)
    rw [resize, if_pos hgrow, hnone] at hresize
    exact absurd hresize.symm (Option.some_ne_none b₁)
  · obtain rfl := Option.some_inj.mp ((h.resize_le A hgrow).symm.trans hresize)
    have hsame := (write_pointers hwrite).trans (terminate_pointers hterminate)
    have hs := hsame.1
    have he := hsame.2.1
    have hlength := content_length hcontent
    rw [size, hs, he, ← size, h.size_eq, List.length_append, Nat.add_eq_left] at hlength
    obtain rfl := List.eq_nil_of_length_eq_zero hlength
    obtain rfl := Option.some_inj.mp ((write_nil b _).symm.trans hwrite)
    refine ⟨hsame.none h.buffer, ?_⟩
    rw [he, terminate_field hterminate]
    exact (terminate_place h.buffer hterminate).resolve_right fun hin => hfits (Or.inr ⟨rfl, hin⟩)

lemma removeBack_broken (h : b.Window l) {size : ℕ} (hsize : size < 2 ^ 64)
    (hfits : ¬ (size < b.size ∧ (0 < size ∨ b.InAttached b.bufferEnd)))
    {b' : Buffer} (hrun : b.removeBack size = some b')
    (hcontent : b'.content = some (l.take (l.length - size))) :
    b'.buffer = none ∧ b'.bufferEnd = b'.capacityField := by
  have hlength := h.length
  have hlt := h.bound
  have hfit : b.bufferStart + size < 2 ^ 64 := by
    by_contra hover
    exact removeBack_wrapped ⟨hlength, hlt⟩ hsize (Nat.le_of_not_lt hover) hrun hcontent
  have hhome : b.home = b.capacityField := by rw [home, h.buffer]
  rw [h.size_eq] at hfits
  rw [removeBack, wrapAdd_eq hfit, hhome] at hrun
  split_ifs at hrun with hall
  · have hsame := terminate_pointers hrun
    exact ⟨hsame.none h.buffer, hsame.2.1.trans (terminate_field hrun).symm⟩
  · have hsize : ¬ (0 < size ∨ b.InAttached b.bufferEnd) := fun hin => hfits ⟨by omega, hin⟩
    obtain ⟨hzero, hin⟩ := not_or.mp hsize
    obtain rfl := Nat.eq_zero_of_not_pos hzero
    rw [wrapSub_eq hlt (Nat.zero_le _), Nat.sub_zero] at hrun
    have hsame := terminate_pointers hrun
    refine ⟨hsame.none h.buffer, ?_⟩
    rw [hsame.2.1, terminate_field hrun]
    exact (terminate_place h.buffer hrun).resolve_right hin

end Window

/-! ## Steps and runs -/

/-- **An operation without a block** that fits does to the bytes what it is for. -/
theorem step_window (A : Allocator) {b : Buffer} {l : List UInt8} (h : b.Window l) {op : Op}
    (hop : Allowed (some b) op) (hfits : b.WindowFits op) :
    ∃ b' l', op.run A (some b) = some b' ∧ b'.Sound l' ∧ Spec l op l' ∧ b'.Kept (.own op) := by
  cases op with
  | null _ => exact hop.elim
  | ofCapacity _ _ => exact hop.elim
  | ofBytes _ _ => exact hop.elim
  | assign data =>
    obtain ⟨b', hrun, hb'⟩ := h.assign_spec A (outside_lt h.place hop.1) hfits
    exact ⟨b', _, hrun, hb', rfl, trivial⟩
  | prepend data =>
    have hlt : data.bytes.length + b.size + 1 < 2 ^ 64 := hfits
    rw [h.size_eq] at hlt
    obtain ⟨b', hrun, hb'⟩ := h.prependNew_spec A data.bytes hlt
    have hprepend : b.prepend A data.bytes = some b' := by rw [prepend, h.buffer, hrun]
    exact ⟨b', _, hprepend, hb', rfl, trivial⟩
  | append data =>
    obtain ⟨b', hrun, hb', hkept⟩ := h.append_spec A hfits
    exact ⟨b', _, hrun, hb', rfl, hkept⟩
  | resize size =>
    obtain ⟨b', added, hrun, hb', hlength⟩ := h.resize_spec A hfits
    exact ⟨b', _, hrun, hb', ⟨added, rfl, hlength⟩, trivial⟩
  | reserve capacity =>
    obtain ⟨b', hrun, hb'⟩ := h.reserve_spec A hfits
    exact ⟨b', _, hrun, hb', rfl, trivial⟩
  | removeFront size =>
    exact ⟨_, _, rfl, .window (h.removeFront_spec hfits), rfl, trivial⟩
  | removeBack size =>
    obtain ⟨b', hrun, hb', hkept⟩ := h.removeBack_spec hfits
    exact ⟨b', _, hrun, .window hb', rfl, fun _ => hkept⟩
  | clear =>
    obtain ⟨b', hrun, hb'⟩ := h.clear_spec
    exact ⟨b', _, hrun, .window hb', rfl, trivial⟩
  | free => exact ⟨_, _, rfl, .window h.free_spec, rfl, trivial⟩

/-- An operation without a block that does not fit does not, or writes to the object. -/
theorem step_window_broken (A : Allocator) {b : Buffer} {l : List UInt8} (h : b.Window l) {op : Op}
    (hop : Allowed (some b) op) (hfits : ¬ b.WindowFits op) {b' : Buffer}
    (hrun : op.run A (some b) = some b') {l' : List UInt8} (hcontent : b'.content = some l')
    (hkept : b'.Kept (.own op)) :
    ¬ Spec l op l' := by
  cases op with
  | assign data =>
    rintro rfl
    obtain ⟨hle, hne⟩ := not_or.mp hfits
    have hsame : b.assign A data.bytes = some b := by
      rw [assign, if_neg hle, h.buffer]
    obtain rfl := Option.some_inj.mp (hsame.symm.trans hrun)
    exact hne hcontent
  | prepend data =>
    have hnone : b.prepend A data.bytes = none := by
      rw [prepend, h.buffer]
      exact h.prependNew_none A (outside_lt h.place hop.1) hfits
    exact absurd (hnone.symm.trans hrun).symm (Option.some_ne_none b')
  | append data =>
    rintro rfl
    obtain ⟨hnone, hend⟩ := h.append_broken A (outside_lt h.place hop.1) hfits hrun hcontent
    exact hkept hnone hend
  | resize size =>
    rintro ⟨added, -, hlength⟩
    exact h.resize_broken A hop hfits hrun hcontent hlength
  | reserve capacity =>
    exact absurd ((h.reserve_none A hop hfits).symm.trans hrun).symm (Option.some_ne_none b')
  | removeFront size =>
    rintro rfl
    obtain rfl := Option.some_inj.mp hrun
    exact removeFront_wrapped ⟨h.length, h.bound⟩ hop (Nat.le_of_not_lt hfits) hcontent
  | removeBack size =>
    rintro rfl
    obtain ⟨hnone, hend⟩ := h.removeBack_broken hop hfits hrun hcontent
    exact hkept hnone hend
  | _ => exact absurd trivial hfits

/-- The pointers are in order, and between them are these bytes; before there is a `Buffer` there are
    none. -/
def Shows : Option Buffer → List UInt8 → Prop
  | none, l => l = []
  | some b, l => b.bufferStart ≤ b.bufferEnd ∧ (b.buffer.isSome → b.Valid) ∧ b.content = some l

/-- The bytes of the `Buffer` of a state -/
def StateSound : Option Buffer → List UInt8 → Prop
  | none, l => l = []
  | some b, l => b.Sound l

lemma valid_detached {b : Buffer} (hb : b.buffer.isSome) : b.detached.Valid ↔ b.Valid := by
  obtain ⟨k, hk⟩ := Option.isSome_iff_exists.mp hb
  have hk' : b.detached.buffer = some k := hk
  rw [Valid, Valid, hk, hk']
  rfl

lemma allowed_detached (b : Buffer) (op : Op) : Allowed (some b.detached) op ↔ Allowed (some b) op := by
  cases op with
  | _ => rfl

lemma fits_detached (b : Buffer) (op : Op) : Fits (some b.detached) op ↔ Fits (some b) op := by
  cases op with
  | _ => rfl

lemma Sound.shows {b : Buffer} {l : List UInt8} (h : b.Sound l) : Shows (some b) l := by
  cases h with
  | block hb hl =>
    refine ⟨?_, fun _ => (valid_detached hb).mp hl.valid, (content_detached hb).symm.trans hl.content⟩
    have hbounds : b.bufferStart + l.length = b.bufferEnd := hl.bounds.1
    exact hbounds ▸ Nat.le_add_right _ _
  | window hw =>
    refine ⟨hw.length ▸ Nat.le_add_right _ _, fun hb => ?_, hw.content_eq⟩
    rw [hw.buffer] at hb
    exact absurd hb Bool.false_ne_true

/-- Nothing was attached to a `Buffer` before. -/
lemma Holds.sound {b : Buffer} {l : List UInt8} (h : b.Holds l) : b.Sound l := by
  have heq : b.detached = b := by
    obtain ⟨f, buffer, attached, s, e, c⟩ := b
    obtain rfl : attached = none := h.attached
    rfl
  exact .of_detached (heq.symm ▸ h)

/-- An operation that does not fit keeps the block. -/
lemma run_isSome {A : Allocator} {b b' : Buffer} (hb : b.buffer.isSome) {op : Op}
    (hop : Allowed (some b) op) (hfits : ¬ Fits (some b) op) (h : op.run A (some b) = some b') :
    b'.buffer.isSome := by
  cases op with
  | append data => exact append_isSome hb h
  | resize size => exact resize_isSome hb h
  | reserve capacity =>
    exact absurd ((reserve_wrapped A hop hfits).symm.trans h).symm (Option.some_ne_none b')
  | removeFront size =>
    obtain rfl := Option.some_inj.mp h
    rwa [removeFront_buffer]
  | removeBack size => exact removeBack_isSome hb h
  | _ => exact absurd trivial hfits

/-- With a block no terminator is written to the object. -/
lemma kept_block {A : Allocator} {b b' : Buffer} (hb : b.buffer.isSome) {op : Op}
    (h : op.run A (some b) = some b') : b'.Kept (.own op) := by
  have hsome : b'.buffer.isSome → b'.buffer = none → b'.bufferEnd ≠ b'.capacityField := by
    intro hsome hnone
    rw [hnone] at hsome
    exact absurd hsome Bool.false_ne_true
  cases op with
  | append data => exact hsome (append_isSome hb h)
  | removeBack size => exact hsome (removeBack_isSome hb h)
  | _ => trivial

/-- What is attached is shown. -/
lemma attach_window {b : Buffer} {data : MemoryBlock} (hf : Place b.capacityField)
    (hdata : Beside data b) (hlt : data.address + data.bytes.length < 2 ^ 64) :
    (b.attach data).Window data.bytes := by
  refine ⟨rfl, hf, (wrapAdd_eq hlt).symm, by rw [attach, wrapAdd_eq hlt]; exact hlt, ?_⟩
  rcases hdata.1.1 with hnil | ⟨hpos, -⟩
  · exact Or.inl hnil
  · refine Or.inr ⟨data, [], [], rfl, hpos, hdata.1.2, ?_, rfl⟩
    rw [List.nil_append, List.append_nil]

/-- The bytes are shown by another object. -/
lemma Sound.moved {b : Buffer} {l : List UInt8} (h : b.Sound l) {f : ℕ} (hf : Place f)
    (hapart : b.buffer = none → ∀ k ∈ b.attached, Apart k f 8) :
    Sound { b with capacityField := f } l := by
  cases h with
  | block hb hl =>
    refine .block hb ?_
    have heq : detached { b with capacityField := f } = { b.detached with capacityField := f } :=
      rfl
    have hb' : b.detached.buffer.isSome := hb
    rw [heq]
    generalize b.detached = c at hl hb'
    cases hl with
    | null _ => exact absurd hb' Bool.false_ne_true
    | laid _ ha hroom hle => exact .laid hf ha hroom hle
  | window hw =>
    refine .window ⟨hw.buffer, hf, hw.length, hw.bound, ?_⟩
    rcases hw.bytes with hnil | ⟨k, gap, rest, hk, hpos, -, hbytes, hstart⟩
    · exact Or.inl hnil
    · exact Or.inr ⟨k, gap, rest, hk, hpos, hapart hw.buffer k hk, hbytes, hstart⟩

lemma Sound.place {b : Buffer} {l : List UInt8} (h : b.Sound l) : Place b.capacityField := by
  cases h with
  | block _ hl => exact hl.place
  | window hw => exact hw.place

/-- **An operation** that fits does to the bytes what it is for. -/
theorem step_attach (A : Allocator) {s : Option Buffer} {l : List UInt8} (h : StateSound s l)
    {op : AttachOp} (hop : op.Allowed s) (hfits : op.Fits s) :
    ∃ b' l', op.run A s = some b' ∧ b'.Sound l' ∧ op.Spec l l' ∧ b'.Kept op := by
  cases s with
  | none =>
    cases op with
    | own op =>
      obtain ⟨b', l', hrun, hb', hspec⟩ := step_holds A (s := none) h hop hfits
      refine ⟨b', l', hrun, hb'.sound, hspec, ?_⟩
      cases op with
      | append _ => exact hop.elim
      | removeBack _ => exact hop.elim
      | _ => trivial
    | attach _ => exact hop.elim
    | swap _ => exact hop.elim
  | some b =>
    have hb : b.Sound l := h
    cases op with
    | own op =>
      rw [AttachOp.Fits] at hfits
      cases hb with
      | block hsome hl =>
        rw [if_pos hsome] at hfits
        obtain ⟨c, l', hrun, hc, hspec⟩ := step_holds A (s := some b.detached) hl
          ((allowed_detached b op).mpr hop) ((fits_detached b op).mpr hfits)
        rw [run_detached A hsome, Option.map_eq_some_iff] at hrun
        obtain ⟨b', hrun, rfl⟩ := hrun
        exact ⟨b', l', hrun, .of_detached hc, hspec, kept_block hsome hrun⟩
      | window hw =>
        rw [hw.buffer, if_neg (by exact Bool.false_ne_true)] at hfits
        exact step_window A hw hop hfits
    | attach data =>
      exact ⟨_, _, rfl, .window (attach_window hb.place hop.1 hop.2), rfl, trivial⟩
    | swap other =>
      obtain ⟨⟨l', hl'⟩, hapart⟩ := hop
      exact ⟨_, l', rfl, hl'.moved hb.place hapart, hl'.shows.2.2, trivial⟩

/-- An operation that does not fit does not. -/
theorem step_attach_broken (A : Allocator) {s : Option Buffer} {l : List UInt8}
    (h : StateSound s l) {op : AttachOp} (hop : op.Allowed s) (hfits : ¬ op.Fits s) {b' : Buffer}
    (hrun : op.run A s = some b') {l' : List UInt8} (hshows : Shows (some b') l')
    (hkept : b'.Kept op) : ¬ op.Spec l l' := by
  obtain ⟨-, hvalid, hcontent⟩ := hshows
  cases s with
  | none =>
    cases op with
    | own op =>
      cases op with
      | ofCapacity f capacity =>
        have hnone := ofCapacity_none A (f := f) hop.2 (Nat.le_of_not_lt hfits)
        exact absurd (hnone.symm.trans hrun).symm (Option.some_ne_none b')
      | _ => exact absurd trivial hfits
    | _ => exact absurd trivial hfits
  | some b =>
    have hb : b.Sound l := h
    cases op with
    | own op =>
      rw [AttachOp.Fits] at hfits
      cases hb with
      | block hsome hl =>
        rw [if_pos hsome] at hfits
        have hsome' := run_isSome hsome hop hfits hrun
        have hrun' : op.run A (some b.detached) = some b'.detached := by
          rw [run_detached A hsome]
          exact congrArg _ hrun
        exact step_wrapped A (s := some b.detached) hl ((allowed_detached b op).mpr hop)
          (fun hfit => hfits ((fits_detached b op).mp hfit)) hrun'
          ((valid_detached hsome').mpr (hvalid hsome'))
          ((content_detached hsome').trans hcontent)
      | window hw =>
        rw [hw.buffer, if_neg (by exact Bool.false_ne_true)] at hfits
        exact step_window_broken A hw hop hfits hrun hcontent hkept
    | _ => exact absurd trivial hfits

/-- The program, as far as its operations are `ok` -/
def attachSystem (ok : Option Buffer → AttachOp → Prop) : System (Option Buffer) AttachOp where
  initial s := s = none
  step s ops s' := ∃ A op b', op.Allowed s ∧ ok s op ∧ op.run A s = some b' ∧ s' = some b'
    ∧ ops = [op]

/-- What the operations are for: a list of bytes, which is replaced by `attach` -/
def attachBytes : System (List UInt8) AttachOp where
  initial l := l = []
  step l ops l' := ∃ op, AttachOp.Spec l op l' ∧ ops = [op]

/-- **Every run** whose operations fit is a run of a list of bytes.  In each of its states any
    operation stays in the block or in what was attached, and does to the bytes what it is for, just
    when it fits. -/
theorem attach_refines {ops : List AttachOp} {s : Option Buffer}
    (h : (attachSystem fun s op => op.Fits s).Run ops s) :
    ∃ l, attachBytes.Run ops l ∧ Shows s l ∧ ∀ A (op : AttachOp), op.Allowed s →
      ((∃ b' l', op.run A s = some b' ∧ Shows (some b') l' ∧ op.Spec l l' ∧ b'.Kept op)
        ↔ op.Fits s) := by
  have hstep : ∀ s l es s', StateSound s l → (attachSystem fun s op => op.Fits s).step s es s' →
      ∃ l', attachBytes.step l es l' ∧ StateSound s' l' := by
    rintro s l es s' hs ⟨A, op, b', hop, hfits, hrun, rfl, rfl⟩
    obtain ⟨b, l', hrun', hb, hspec, -⟩ := step_attach A hs hop hfits
    obtain rfl := Option.some_inj.mp (hrun'.symm.trans hrun)
    exact ⟨l', ⟨op, hspec, rfl⟩, hb⟩
  obtain ⟨l, hl, hs⟩ := h.simulation (fun s hs => ⟨[], rfl, hs ▸ rfl⟩) hstep
  refine ⟨l, hl, ?_, fun A op hop => ⟨?_, fun hfits => ?_⟩⟩
  · cases s with
    | none => exact hs
    | some b => exact Sound.shows hs
  · rintro ⟨b', l', hrun, hshows, hspec, hkept⟩
    by_contra hfits
    exact step_attach_broken A hs hop hfits hrun hshows hkept hspec
  · obtain ⟨b', l', hrun, hb', hspec, hkept⟩ := step_attach A hs hop hfits
    exact ⟨b', l', hrun, hb'.shows, hspec, hkept⟩

/-- A `Buffer` with a capacity of ten that shows two bytes of other memory -/
def attachedTwo : Buffer :=
  { capacityField := 4096, buffer := none, attached := some ⟨8192, [97, 98]⟩, bufferStart := 8192,
    bufferEnd := 8194, capacity := 10 }

lemma run_attached : (attachSystem fun s op => op.Fits s).Run
    [.own (.ofCapacity 4096 10), .attach ⟨8192, [97, 98]⟩] (some attachedTwo) := by
  have hallowed : AttachOp.Allowed none (.own (.ofCapacity 4096 10)) :=
    ⟨⟨by decide, by decide⟩, show 10 < 2 ^ 64 by decide⟩
  have hfirst : (attachSystem fun s op => op.Fits s).step none [.own (.ofCapacity 4096 10)]
      (some (laid 4096 1 [] [] (List.replicate 11 0))) :=
    ⟨.first, _, _, hallowed, show 10 + 1 < 2 ^ 64 by decide, rfl, rfl, rfl⟩
  have hbeside : Beside ⟨8192, [97, 98]⟩ (laid 4096 1 [] [] (List.replicate 11 0)) := by
    refine ⟨⟨Or.inr ⟨by decide, by decide⟩, Or.inr (Or.inr (by decide))⟩, ?_⟩
    rintro k hk
    obtain rfl := Option.some_inj.mp hk
    exact Or.inr (Or.inr (by decide))
  have hsecond : (attachSystem fun s op => op.Fits s).step
      (some (laid 4096 1 [] [] (List.replicate 11 0))) [.attach ⟨8192, [97, 98]⟩]
      (some attachedTwo) :=
    ⟨.first, .attach ⟨8192, [97, 98]⟩, _, ⟨hbeside, by decide⟩, trivial, rfl, rfl, rfl⟩
  exact (System.Run.start rfl |>.next hfirst).next hsecond

/-- A byte in other memory may be added before or after two bytes that are attached. -/
lemma beside_attached : Beside ⟨12288, [99]⟩ attachedTwo :=
  ⟨⟨Or.inr ⟨by decide, by decide⟩, Or.inr (Or.inr (by decide))⟩,
    fun _ hk => absurd hk.symm (Option.some_ne_none _)⟩

/-- A byte is added before two that are attached. -/
theorem attach_refines_two : ∃ b' l', (AttachOp.own (.prepend ⟨12288, [99]⟩)).run .first
    (some attachedTwo) = some b' ∧ Shows (some b') l' := by
  obtain ⟨l, -, -, hop⟩ := attach_refines run_attached
  obtain ⟨b', l', hrun, hshows, -⟩ :=
    (hop .first (.own (.prepend ⟨12288, [99]⟩)) beside_attached).mpr
      (show [(99 : UInt8)].length + attachedTwo.size + 1 < 2 ^ 64 by decide)
  exact ⟨b', l', hrun, hshows⟩

/-- **What is attached is taken for a block of the old capacity**: two bytes are attached to a
    `Buffer` with a capacity of ten; a byte that is assigned is not taken, and one that is appended
    is followed by a terminator outside of what was attached. -/
theorem attach_keeps_capacity : (attachSystem fun s op => op.Fits s).Run
      [.own (.ofCapacity 4096 10), .attach ⟨8192, [97, 98]⟩] (some attachedTwo)
    ∧ Shows (some attachedTwo) [97, 98]
    ∧ AttachOp.Allowed (some attachedTwo) (.own (.assign ⟨12288, [99]⟩))
    ∧ (∀ l', AttachOp.Spec [97, 98] (.own (.assign ⟨12288, [99]⟩)) l' → l' = [99])
    ∧ (∃ b', (AttachOp.own (.assign ⟨12288, [99]⟩)).run .first (some attachedTwo) = some b'
      ∧ b'.content = some [97, 98])
    ∧ AttachOp.Allowed (some attachedTwo) (.own (.append ⟨12288, [99]⟩))
    ∧ (AttachOp.own (.append ⟨12288, [99]⟩)).run .first (some attachedTwo) = none := by
  refine ⟨run_attached, ⟨by decide, fun h => absurd h Bool.false_ne_true, by decide⟩,
    beside_attached, fun _ h => h, ⟨_, rfl, by decide⟩, beside_attached, by decide⟩

end Nstd.Buffer
