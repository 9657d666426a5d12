import Mathlib.Tactic.ByContra
import Nstd.Container.BufferLayout
import Nstd.Core.System

/-!
# What a `Buffer` is for

* `Spec` — what an operation does to a list of bytes.
* `Allowed` — arguments are in memory, and not in the `Buffer`.
* `Fits` — no sum of a pointer and a size, or of a size and one, reaches `2 ^ 64`; `SumsFit` — also
  when arguments may be in the `Buffer`.
* `step_sums`, `step_holds`, `step_wrapped` — what an operation does when it fits, and when not.
* **`buffer_refines`** — in every run whose operations fit, the `Buffer` is a list of bytes; an
  operation that does not fit breaks it.

If an operation fits, pointers are positions in a block, and the bytes between two of them are those of
the list.  If it does not, a sum has wrapped, and a comparison or a size is wrong.
-/

namespace Nstd.Buffer

/-- What an operation does to a list of bytes; bytes added by `resize` may be any. -/
def Spec (l : List UInt8) : Op → List UInt8 → Prop
  | .null _, l' => l' = []
  | .ofCapacity _ _, l' => l' = []
  | .ofBytes _ data, l' => l' = data.bytes
  | .assign data, l' => l' = data.bytes
  | .prepend data, l' => l' = data.bytes ++ l
  | .append data, l' => l' = l ++ data.bytes
  | .resize size, l' => ∃ added, l' = l.take size ++ added ∧ l'.length = size
  | .reserve _, l' => l' = l
  | .removeFront size, l' => l' = l.drop size
  | .removeBack size, l' => l' = l.take (l.length - size)
  | .clear, l' => l' = []
  | .free, l' => l' = []

/-- Two places in memory have no byte in common. -/
def Apart (data : MemoryBlock) (addr n : ℕ) : Prop :=
  data.bytes = [] ∨ data.address + data.bytes.length ≤ addr ∨ addr + n ≤ data.address

/-- The bytes of an argument have addresses, and none of them is in the object. -/
def Outside (data : MemoryBlock) (capacityField : ℕ) : Prop :=
  (data.bytes = [] ∨ 0 < data.address ∧ data.address + data.bytes.length ≤ 2 ^ 64)
    ∧ Apart data capacityField 8

/-- The bytes of an argument are neither in the object nor in its block. -/
def Beside (data : MemoryBlock) (b : Buffer) : Prop :=
  Outside data b.capacityField ∧ ∀ k ∈ b.buffer, Apart data k.address k.bytes.length

/-- What a program has to see to: an object is constructed once and first; sizes are numbers of 64
    bits; arguments are not in the `Buffer` itself. -/
def Allowed : Option Buffer → Op → Prop
  | none, .null capacityField => Place capacityField
  | none, .ofCapacity capacityField capacity => Place capacityField ∧ capacity < 2 ^ 64
  | none, .ofBytes capacityField data => Place capacityField ∧ Outside data capacityField
  | some b, .assign data => Beside data b
  | some b, .prepend data => Beside data b
  | some b, .append data => Beside data b
  | some _, .resize size => size < 2 ^ 64
  | some _, .reserve capacity => capacity < 2 ^ 64
  | some _, .removeFront size => size < 2 ^ 64
  | some _, .removeBack size => size < 2 ^ 64
  | some _, .clear => True
  | some _, .free => True
  | _, _ => False

/-- **No sum that the operation makes reaches `2 ^ 64`.** -/
def Fits : Option Buffer → Op → Prop
  | none, .ofCapacity _ capacity => capacity + 1 < 2 ^ 64
  | some b, .append data => b.ResizeFits (b.size + data.bytes.length)
  | some b, .resize size => b.ResizeFits size
  | some b, .reserve capacity => capacity > b.capacity → capacity + 1 < 2 ^ 64
  | some b, .removeFront size => b.bufferStart + size < 2 ^ 64
  | some b, .removeBack size => b.bufferStart + size < 2 ^ 64
  | _, _ => True

/-! ## Sums that wrap -/

/-- An access to memory does not change the pointers. -/
def SamePointers (b b' : Buffer) : Prop :=
  b'.bufferStart = b.bufferStart ∧ b'.bufferEnd = b.bufferEnd
    ∧ b'.buffer.isSome = b.buffer.isSome

lemma SamePointers.trans {b₁ b₂ b₃ : Buffer} (h : b₁.SamePointers b₂) (h' : b₂.SamePointers b₃) :
    b₁.SamePointers b₃ :=
  ⟨h'.1.trans h.1, h'.2.1.trans h.2.1, h'.2.2.trans h.2.2⟩

lemma write_pointers {b b' : Buffer} {addr : ℕ} {bytes : List UInt8}
    (h : b.write addr bytes = some b') : b.SamePointers b' := by
  rw [write] at h
  split at h
  · rename_i k _ hk
    obtain ⟨k', -, hb⟩ := Option.bind_eq_some_iff.mp h
    obtain rfl := Option.some_inj.mp hb
    exact ⟨rfl, rfl, by rw [hk]; rfl⟩
  · rename_i k hnone hk
    obtain ⟨k', -, hb⟩ := Option.bind_eq_some_iff.mp h
    obtain rfl := Option.some_inj.mp hb
    exact ⟨rfl, rfl, rfl⟩
  · split_ifs at h
    obtain rfl := Option.some_inj.mp h
    exact ⟨rfl, rfl, rfl⟩

lemma terminate_pointers {b b' : Buffer} (h : b.terminate = some b') : b.SamePointers b' := by
  rw [terminate] at h
  split_ifs at h
  · obtain rfl := Option.some_inj.mp h
    exact ⟨rfl, rfl, rfl⟩
  · exact write_pointers h

/-- What is read has as many bytes as were asked for. -/
lemma content_length {b : Buffer} {l : List UInt8} (h : b.content = some l) : l.length = b.size := by
  rw [content, read] at h
  split at h
  · exact MemoryBlock.read_length h
  · exact MemoryBlock.read_length h
  · split_ifs at h with hzero
    rw [← Option.some_inj.mp h, hzero, List.length_nil]

/-- A `bufferEnd` before `bufferStart` is not valid. -/
lemma not_valid {b : Buffer} (hbuffer : b.buffer.isSome) (h : b.bufferEnd < b.bufferStart) :
    ¬ b.Valid := by
  obtain ⟨k, hk⟩ := Option.isSome_iff_exists.mp hbuffer
  rw [Valid, hk]
  exact fun ⟨_, hle, _⟩ => absurd hle (Nat.not_le.mpr h)

/-- There is no place for the terminator in a block without bytes. -/
lemma terminate_none {b : Buffer} {a : ℕ} (h : b.buffer = some ⟨a, []⟩) : b.terminate = none := by
  have hone : [(0 : UInt8)] ≠ [] := List.cons_ne_nil _ _
  simp only [terminate, h, Option.isNone_some, Bool.false_eq_true, false_and, if_false, write,
    MemoryBlock.write_nil a _ hone, Option.bind_eq_bind, Option.bind_none]

/-- `new char[capacity + 1]` has no bytes when the sum wraps. -/
lemma new_wrapped (A : Allocator) {capacity : ℕ} (hcapacity : capacity < 2 ^ 64)
    (h : 2 ^ 64 ≤ capacity + 1) : A.new (wrapAdd capacity 1) = ⟨A.address 0, []⟩ := by
  have hzero : capacity + 1 - 2 ^ 64 = 0 := by omega
  rw [wrapAdd_over hcapacity (by decide) h, hzero, Allocator.new,
    List.eq_nil_of_length_eq_zero (A.bytes_length 0)]

lemma ofCapacity_none (A : Allocator) {f capacity : ℕ} (hcapacity : capacity < 2 ^ 64)
    (h : 2 ^ 64 ≤ capacity + 1) : ofCapacity A f capacity = none := by
  rw [ofCapacity, new_wrapped A hcapacity h]
  exact terminate_none rfl

lemma grow_none (A : Allocator) {b : Buffer} {capacity size : ℕ} (hcapacity : capacity < 2 ^ 64)
    (h : 2 ^ 64 ≤ capacity + 1) : b.grow A capacity size = none := by
  rw [grow, new_wrapped A hcapacity h]
  cases hread : b.read b.bufferStart b.size with
  | none => rfl
  | some old =>
    by_cases hold : old = []
    · subst hold
      simp only [MemoryBlock.write_zero, Option.bind_eq_bind, Option.bind_some]
      exact terminate_none rfl
    · simp only [MemoryBlock.write_nil _ _ hold, Option.bind_eq_bind, Option.bind_some,
        Option.bind_none]

/-- A `resize` that does not fit leaves a `bufferEnd` before `bufferStart`, if anything. -/
lemma resize_wrapped (A : Allocator) {b b' : Buffer} {l : List UInt8} (h : b.Holds l) {size : ℕ}
    (hsize : size < 2 ^ 64) (hfits : ¬ b.ResizeFits size) (hrun : b.resize A size = some b') :
    b'.buffer.isSome ∧ b'.bufferEnd < b'.bufferStart := by
  rw [resize] at hrun
  rw [ResizeFits] at hfits
  split_ifs at hfits hrun with hgrow
  · rw [grow_none A hsize (by omega)] at hrun
    exact absurd hrun.symm (Option.some_ne_none b')
  · cases h with
    | null hf => exact absurd (fun h => absurd h Bool.false_ne_true) hfits
    | @laid f a gap l room hf ha hroom hle =>
      rw [laid_capacity] at hgrow
      have hover : 2 ^ 64 ≤ a + gap.length + size :=
        Nat.le_of_not_lt fun hlt => hfits fun _ => hlt
      have hstart : wrapAdd (laid f a gap l room).bufferStart size
          = a + gap.length + size - 2 ^ 64 :=
        wrapAdd_over (by rw [laid_bufferStart]; omega) hsize hover
      have hend : wrapAdd a (laid f a gap l room).capacity
          = a + (gap.length + l.length + room.length - 1) :=
        wrapAdd_eq (by rw [laid_capacity]; omega)
      simp only [laid_buffer, hstart, hend] at hrun
      rw [if_pos (by omega)] at hrun
      obtain ⟨hs, he, hbuffer⟩ := terminate_pointers hrun
      have hs' : b'.bufferStart = a + gap.length := hs
      have he' : b'.bufferEnd = a + gap.length + size - 2 ^ 64 := he
      refine ⟨hbuffer.trans rfl, ?_⟩
      rw [hs', he']
      omega

/-- So does an `append` that does not fit. -/
lemma append_wrapped (A : Allocator) {b b' : Buffer} {l data : List UInt8} (h : b.Holds l)
    (hsize : l.length + data.length < 2 ^ 64) (hfits : ¬ b.ResizeFits (b.size + data.length))
    (hrun : b.append A data = some b') :
    b'.buffer.isSome ∧ b'.bufferEnd < b'.bufferStart := by
  rw [h.size] at hfits
  rw [append, h.size, wrapAdd_eq hsize] at hrun
  obtain ⟨b₁, hresize, hrun⟩ := Option.bind_eq_some_iff.mp hrun
  obtain ⟨b₂, hwrite, hterminate⟩ := Option.bind_eq_some_iff.mp hrun
  obtain ⟨hbuffer, hlt⟩ := resize_wrapped A h hsize hfits hresize
  obtain ⟨hs, he, hb⟩ := (write_pointers hwrite).trans (terminate_pointers hterminate)
  rw [hs, he, hb]
  exact ⟨hbuffer, hlt⟩

lemma reserve_wrapped (A : Allocator) {b : Buffer} {capacity : ℕ} (hcapacity : capacity < 2 ^ 64)
    (hfits : ¬ (capacity > b.capacity → capacity + 1 < 2 ^ 64)) : b.reserve A capacity = none := by
  obtain ⟨hgrow, hover⟩ := Classical.not_imp.mp hfits
  rw [reserve, if_neg (Nat.not_le.mpr hgrow)]
  exact grow_none A hcapacity (Nat.not_lt.mp hover)

/-- A `removeFront` that does not fit leaves more bytes than there were. -/
lemma removeFront_wrapped {b : Buffer} {l : List UInt8}
    (h : b.bufferStart + l.length = b.bufferEnd ∧ b.bufferEnd < 2 ^ 64) {size : ℕ}
    (hsize : size < 2 ^ 64) (hfits : 2 ^ 64 ≤ b.bufferStart + size) :
    (b.removeFront size).content ≠ some (l.drop size) := by
  obtain ⟨hend, hlt⟩ := h
  have hstart : wrapAdd b.bufferStart size = b.bufferStart + size - 2 ^ 64 :=
    wrapAdd_over (by omega) hsize hfits
  intro hcontent
  rw [removeFront, hstart] at hcontent
  simp only at hcontent
  rw [if_neg (by omega), List.drop_eq_nil_of_le (by omega)] at hcontent
  have hlength : 0 = wrapSub b.bufferEnd (b.bufferStart + size - 2 ^ 64) := content_length hcontent
  rw [wrapSub_eq hlt (by omega)] at hlength
  omega

/-- A `removeBack` that does not fit leaves a `bufferEnd` that is too low or too high. -/
lemma removeBack_wrapped {b b' : Buffer} {l : List UInt8}
    (h : b.bufferStart + l.length = b.bufferEnd ∧ b.bufferEnd < 2 ^ 64) {size : ℕ}
    (hsize : size < 2 ^ 64) (hfits : 2 ^ 64 ≤ b.bufferStart + size)
    (hrun : b.removeBack size = some b') : b'.content ≠ some (l.take (l.length - size)) := by
  obtain ⟨hend, hlt⟩ := h
  have hstart : wrapAdd b.bufferStart size = b.bufferStart + size - 2 ^ 64 :=
    wrapAdd_over (by omega) hsize hfits
  rw [removeBack, hstart, if_neg (by omega)] at hrun
  obtain ⟨hs, he, hbuffer⟩ := terminate_pointers hrun
  simp only at hs he hbuffer
  intro hcontent
  rw [Nat.sub_eq_zero_of_le (by omega), List.take_zero] at hcontent
  have hlength : 0 = wrapSub b'.bufferEnd b'.bufferStart := content_length hcontent
  rw [hs, he] at hlength
  by_cases hle : size ≤ b.bufferEnd
  · rw [wrapSub_eq hlt hle, wrapSub_over (by omega) (by omega)] at hlength
    omega
  · rw [wrapSub_over hsize (by omega), wrapSub_eq (by omega) (by omega)] at hlength
    omega

/-! ## Steps and runs -/

/-- An argument and the object fit in memory together. -/
lemma outside_lt {data : MemoryBlock} {f : ℕ} (hf : Place f) (hdata : Outside data f) :
    data.bytes.length + 1 < 2 ^ 64 := by
  obtain ⟨hmem, hapart⟩ := hdata
  obtain ⟨hf, hend⟩ := hf
  rcases hmem with hnil | ⟨hpos, hlast⟩
  · rw [hnil]
    decide
  · rcases hapart with hnil | hbefore | hafter
    · rw [hnil]
      decide
    · omega
    · omega

/-- An argument and the block of a `Buffer` fit in memory together. -/
lemma Beside.lt {data : MemoryBlock} {b : Buffer} {l : List UInt8} (h : b.Holds l)
    (hdata : Beside data b) : data.bytes.length + b.capacity + 1 < 2 ^ 64 := by
  obtain ⟨⟨hmem, hfield⟩, hblock⟩ := hdata
  cases h with
  | @null f hf => exact outside_lt hf ⟨hmem, hfield⟩
  | @laid f a gap l room hf ha hroom hle =>
    have hapart : Apart data a (gap ++ l ++ room).length := hblock _ rfl
    rw [Apart, List.length_append, List.length_append] at hapart
    rw [laid_capacity]
    rcases hmem with hnil | ⟨hpos, hend⟩
    · rw [hnil, List.length_nil]
      omega
    · rcases hapart with hnil | hbefore | hafter
      · rw [hnil, List.length_nil]
        omega
      · omega
      · omega

/-- The `Buffer` of a state holds the bytes; before there is one there are none. -/
def StateHolds : Option Buffer → List UInt8 → Prop
  | none, l => l = []
  | some b, l => b.Holds l

/-- An object is constructed once and first. -/
def Called (s : Option Buffer) (op : Op) : Prop :=
  match s, op.place with
  | none, some capacityField => Place capacityField
  | some _, none => True
  | _, _ => False

/-- **No sum that the operation makes reaches `2 ^ 64`**, wherever its argument is. -/
def SumsFit : Option Buffer → Op → Prop
  | none, .ofBytes _ data => data.bytes.length + 1 < 2 ^ 64
  | some _, .assign data => data.bytes.length + 1 < 2 ^ 64
  | some b, .prepend data => data.bytes.length + b.size + 1 < 2 ^ 64
  | some b, .append data => b.size + data.bytes.length < 2 ^ 64
      ∧ b.ResizeFits (b.size + data.bytes.length)
  | s, op => Fits s op

/-- **An operation** of which all sums fit does to the bytes what it is for. -/
theorem step_sums (A : Allocator) {s : Option Buffer} {l : List UInt8} (h : StateHolds s l)
    {op : Op} (hop : Called s op) (hfits : SumsFit s op) :
    ∃ b' l', op.run A s = some b' ∧ b'.Holds l' ∧ Spec l op l' := by
  cases s with
  | none =>
    cases op with
    | null f => exact ⟨_, [], rfl, .null hop, rfl⟩
    | ofCapacity f capacity =>
      obtain ⟨b, hrun, hb⟩ := ofCapacity_spec A hop hfits
      exact ⟨b, [], hrun, hb, rfl⟩
    | ofBytes f data =>
      obtain ⟨b, hrun, hb⟩ := ofBytes_spec A hop hfits
      exact ⟨b, _, hrun, hb, rfl⟩
    | _ => exact hop.elim
  | some b =>
    have hb : b.Holds l := h
    cases op with
    | null _ => exact hop.elim
    | ofCapacity _ _ => exact hop.elim
    | ofBytes _ _ => exact hop.elim
    | assign data =>
      obtain ⟨b', hrun, hb'⟩ := assign_spec A data.bytes hb hfits
      exact ⟨b', _, hrun, hb', rfl⟩
    | prepend data =>
      have hlt : data.bytes.length + b.size + 1 < 2 ^ 64 := hfits
      rw [hb.size] at hlt
      obtain ⟨b', hrun, hb'⟩ := prepend_spec A hb hlt
      exact ⟨b', _, hrun, hb', rfl⟩
    | append data =>
      obtain ⟨hlt, hresize⟩ : b.size + data.bytes.length < 2 ^ 64
        ∧ b.ResizeFits (b.size + data.bytes.length) := hfits
      rw [hb.size] at hlt
      obtain ⟨b', hrun, hb'⟩ := append_spec A data.bytes hb hlt hresize
      exact ⟨b', _, hrun, hb', rfl⟩
    | resize size =>
      obtain ⟨b', added, hrun, hb', hlength⟩ := resize_spec A hb hfits
      exact ⟨b', _, hrun, hb', added, rfl, hlength⟩
    | reserve capacity =>
      obtain ⟨b', hrun, hb'⟩ := reserve_spec A hb hfits
      exact ⟨b', _, hrun, hb', rfl⟩
    | removeFront size => exact ⟨_, _, rfl, removeFront_spec hb hfits, rfl⟩
    | removeBack size =>
      obtain ⟨b', hrun, hb'⟩ := removeBack_spec hb hfits
      exact ⟨b', _, hrun, hb', rfl⟩
    | clear =>
      obtain ⟨b', hrun, hb'⟩ := clear_spec hb
      exact ⟨b', _, hrun, hb', rfl⟩
    | free => exact ⟨_, _, rfl, free_spec hb, rfl⟩

/-- With arguments in other memory the sums that `Fits` does not see to fit anyway. -/
lemma sums_of_allowed {s : Option Buffer} {l : List UInt8} (h : StateHolds s l) {op : Op}
    (hop : Allowed s op) (hfits : Fits s op) : Called s op ∧ SumsFit s op := by
  cases s with
  | none =>
    cases op with
    | null f => exact ⟨hop, hfits⟩
    | ofCapacity f capacity => exact ⟨hop.1, hfits⟩
    | ofBytes f data => exact ⟨hop.1, outside_lt hop.1 hop.2⟩
    | _ => exact hop.elim
  | some b =>
    have hb : b.Holds l := h
    have hle := hb.length_le
    have hsize := hb.size
    cases op with
    | null _ => exact hop.elim
    | ofCapacity _ _ => exact hop.elim
    | ofBytes _ _ => exact hop.elim
    | assign data =>
      have hlt := Beside.lt hb hop
      exact ⟨trivial, by rw [SumsFit]; omega⟩
    | prepend data =>
      have hlt := Beside.lt hb hop
      exact ⟨trivial, by rw [SumsFit]; omega⟩
    | append data =>
      have hlt := Beside.lt hb hop
      exact ⟨trivial, by omega, hfits⟩
    | _ => exact ⟨trivial, hfits⟩

/-- **An operation** that fits does to the bytes what it is for. -/
theorem step_holds (A : Allocator) {s : Option Buffer} {l : List UInt8} (h : StateHolds s l)
    {op : Op} (hop : Allowed s op) (hfits : Fits s op) :
    ∃ b' l', op.run A s = some b' ∧ b'.Holds l' ∧ Spec l op l' := by
  obtain ⟨hcalled, hsums⟩ := sums_of_allowed h hop hfits
  exact step_sums A h hcalled hsums

/-- An operation that does not fit does not. -/
theorem step_wrapped (A : Allocator) {s : Option Buffer} {l : List UInt8} (h : StateHolds s l)
    {op : Op} (hop : Allowed s op) (hfits : ¬ Fits s op) {b' : Buffer} (hrun : op.run A s = some b')
    (hvalid : b'.Valid) {l' : List UInt8} (hcontent : b'.content = some l') : ¬ Spec l op l' := by
  cases s with
  | none =>
    cases op with
    | ofCapacity f capacity =>
      have hnone := ofCapacity_none A (f := f) hop.2 (Nat.le_of_not_lt hfits)
      exact absurd (hnone.symm.trans hrun).symm (Option.some_ne_none b')
    | _ => exact absurd trivial hfits
  | some b =>
    have hb : b.Holds l := h
    cases op with
    | append data =>
      have hlt := Beside.lt hb hop
      have hle := hb.length_le
      obtain ⟨hbuffer, hcrossed⟩ := append_wrapped A hb (by omega) hfits hrun
      exact absurd hvalid (not_valid hbuffer hcrossed)
    | resize size =>
      obtain ⟨hbuffer, hcrossed⟩ := resize_wrapped A hb hop hfits hrun
      exact absurd hvalid (not_valid hbuffer hcrossed)
    | reserve capacity =>
      exact absurd ((reserve_wrapped A hop hfits).symm.trans hrun).symm (Option.some_ne_none b')
    | removeFront size =>
      rintro rfl
      obtain rfl := Option.some_inj.mp hrun
      exact removeFront_wrapped hb.bounds hop (Nat.le_of_not_lt hfits) hcontent
    | removeBack size =>
      rintro rfl
      exact removeBack_wrapped hb.bounds hop (Nat.le_of_not_lt hfits) hrun hcontent
    | _ => exact absurd trivial hfits

/-- The program, as far as its operations are `ok` -/
def system (ok : Option Buffer → Op → Prop) : System (Option Buffer) Op where
  initial s := s = none
  step s ops s' := ∃ A op b', Allowed s op ∧ ok s op ∧ op.run A s = some b' ∧ s' = some b'
    ∧ ops = [op]

/-- What the operations are for: a list of bytes -/
def bytesSystem : System (List UInt8) Op where
  initial l := l = []
  step l ops l' := ∃ op, Spec l op l' ∧ ops = [op]

/-- A `Buffer` refines a list: its pointers are in order, and between them are these bytes. -/
def Refines : Option Buffer → List UInt8 → Prop
  | none, l => l = []
  | some b, l => b.Valid ∧ b.content = some l

/-- **Every run** whose operations fit is a run of a list of bytes.  In each of its states any
    operation stays in the block, and does to the bytes what it is for, just when it fits. -/
theorem buffer_refines {ops : List Op} {s : Option Buffer} (h : (system Fits).Run ops s) :
    ∃ l, bytesSystem.Run ops l ∧ Refines s l ∧ ∀ A op, Allowed s op →
      ((∃ b' l', op.run A s = some b' ∧ Refines (some b') l' ∧ Spec l op l') ↔ Fits s op) := by
  have hstep : ∀ s l es s', StateHolds s l → (system Fits).step s es s' →
      ∃ l', bytesSystem.step l es l' ∧ StateHolds s' l' := by
    rintro s l es s' hs ⟨A, op, b', hop, hfits, hrun, rfl, rfl⟩
    obtain ⟨b, l', hrun', hb, hspec⟩ := step_holds A hs hop hfits
    obtain rfl := Option.some_inj.mp (hrun'.symm.trans hrun)
    exact ⟨l', ⟨op, hspec, rfl⟩, hb⟩
  obtain ⟨l, hl, hs⟩ := h.simulation (fun s hs => ⟨[], rfl, hs ▸ rfl⟩) hstep
  refine ⟨l, hl, ?_, fun A op hop => ⟨?_, fun hfits => ?_⟩⟩
  · cases s with
    | none => exact hs
    | some b => exact ⟨hs.valid, hs.content⟩
  · rintro ⟨b', l', hrun, ⟨hvalid, hcontent⟩, hspec⟩
    by_contra hfits
    exact step_wrapped A hs hop hfits hrun hvalid hcontent hspec
  · obtain ⟨b', l', hrun, hb', hspec⟩ := step_holds A hs hop hfits
    exact ⟨b', l', hrun, ⟨hb'.valid, hb'.content⟩, hspec⟩

/-- Two bytes, of which the first is removed -/
lemma run_two : (system Fits).Run [.ofBytes 4096 ⟨8192, [97, 98]⟩, .removeFront 1]
    (some (laid 4096 1 [97] [98] [0])) := by
  have hallowed : Allowed none (.ofBytes 4096 ⟨8192, [97, 98]⟩) :=
    ⟨⟨by decide, by decide⟩, Or.inr ⟨by decide, by decide⟩, Or.inr (Or.inr (by decide))⟩
  have hfirst : (system Fits).step none [.ofBytes 4096 ⟨8192, [97, 98]⟩]
      (some (laid 4096 1 [] [97, 98] [0])) := ⟨.first, _, _, hallowed, trivial, rfl, rfl, rfl⟩
  have hsecond : (system Fits).step (some (laid 4096 1 [] [97, 98] [0])) [.removeFront 1]
      (some (laid 4096 1 [97] [98] [0])) :=
    ⟨.first, .removeFront 1, _, show 1 < 2 ^ 64 by decide, show 1 + 1 < 2 ^ 64 by decide, rfl, rfl,
      rfl⟩
  exact (System.Run.start rfl |>.next hfirst).next hsecond

/-- The first of two bytes is removed, and bytes are added before and after. -/
theorem buffer_refines_two : ∃ b' l', (Op.resize 5).run .first (some (laid 4096 1 [97] [98] [0]))
    = some b' ∧ Refines (some b') l' ∧ ∃ l, Spec l (.resize 5) l' := by
  obtain ⟨l, -, -, hop⟩ := buffer_refines run_two
  obtain ⟨b', l', hrun, hrefines, hspec⟩ :=
    (hop .first (.resize 5) (show 5 < 2 ^ 64 by decide)).mpr (show 5 + 1 < 2 ^ 64 by decide)
  exact ⟨b', l', hrun, hrefines, l, hspec⟩

/-- **`removeFront` may give bytes back**: of two bytes one is removed, and then as many as there
    are addresses but one; both bytes are there again. -/
theorem removeFront_returns : (system Fits).Run [.ofBytes 4096 ⟨8192, [97, 98]⟩, .removeFront 1]
      (some (laid 4096 1 [97] [98] [0]))
    ∧ Refines (some (laid 4096 1 [97] [98] [0])) [98]
    ∧ Allowed (some (laid 4096 1 [97] [98] [0])) (.removeFront (2 ^ 64 - 1))
    ∧ (∀ l', Spec [98] (.removeFront (2 ^ 64 - 1)) l' → l' = [])
    ∧ ∃ b', (Op.removeFront (2 ^ 64 - 1)).run .first (some (laid 4096 1 [97] [98] [0])) = some b'
      ∧ b'.content = some [97, 98] := by
  refine ⟨run_two, ⟨laid_valid (by decide), by decide⟩, show 2 ^ 64 - 1 < 2 ^ 64 by decide, ?_, _,
    rfl, by decide⟩
  rintro l' rfl
  exact List.drop_eq_nil_of_le (by decide)

end Nstd.Buffer
