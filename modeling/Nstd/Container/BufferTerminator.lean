import Nstd.Container.BufferRuns

/-!
# The terminator of a `Buffer`

* `endByte` — the byte at `bufferEnd`.
* `prependBlock` — the block in which `prepend` puts the bytes when they do not fit in the gap.
* `Spared` — when an operation leaves a zero at `bufferEnd`.
* `terminate_endByte` — the operations that write a terminator; `prepend_endByte`,
  `removeFront_endByte` — the two that do not.
* **`terminated_iff`** — in every run of operations that are spared there is a zero at `bufferEnd`;
  an operation that is not spared leaves another byte there.
* `unterminated` — two runs that end with another byte.

For the two operations that write no terminator, the byte at the new end is one of the bytes before,
which is why the state before decides.
-/

namespace Nstd.Buffer

/-- The byte at `bufferEnd`, which may be the lowest of `_capacity` -/
def endByte (b : Buffer) : Option UInt8 :=
  if b.buffer.isNone ∧ b.bufferEnd = b.capacityField then some (UInt8.ofNat b.capacity)
  else (b.read b.bufferEnd 1).bind List.head?

/-- The block in which `prepend` puts the bytes when `n` more do not fit in the gap -/
def prependBlock (A : Allocator) (b : Buffer) (n : ℕ) : MemoryBlock :=
  match b.buffer with
  | some k => if b.capacity ≥ n + b.size then k else A.new (n + b.size + 1)
  | none => A.new (n + b.size + 1)

/-- **When an operation leaves a zero at `bufferEnd`**.  `prepend` and `removeFront` write none, and
    when they move `bufferEnd` there may be one already. -/
def Spared (A : Allocator) : Option Buffer → Op → Prop
  | some b, .prepend data =>
    (∃ k ∈ b.buffer, data.bytes.length ≤ b.bufferStart - k.address)
      ∨ (b.prependBlock A data.bytes.length).bytes[data.bytes.length + b.size]? = some 0
  | some b, .removeFront size => ∀ k ∈ b.buffer, size < b.size ∨ k.bytes[0]? = some 0
  | _, _ => True

/-- The `Buffer` of a state is in order and is followed by a zero. -/
def Terminated : Option Buffer → Prop
  | none => True
  | some b => b.Valid ∧ b.endByte = some 0

/-! ## Operations that write the terminator -/

lemma null_endByte (f : ℕ) : (null f).endByte = some 0 := by simp [endByte, null]

/-- The byte at `bufferEnd` of a `Buffer` with a block -/
lemma endByte_block {b : Buffer} {k : MemoryBlock} (hk : b.buffer = some k)
    (hle : k.address ≤ b.bufferEnd) : b.endByte = k.bytes[b.bufferEnd - k.address]? := by
  have hread : b.read b.bufferEnd 1 = k.read b.bufferEnd 1 := by rw [read, hk]
  rw [endByte, hk, hread, MemoryBlock.read]
  simp only [Option.isNone_some, Bool.false_eq_true, false_and, if_false, Nat.one_ne_zero]
  split_ifs with hin
  · simp [List.head?_take]
  · rw [List.getElem?_eq_none (by omega)]
    rfl

/-- What a `Buffer` has written is read from it. -/
lemma read_written {b b' : Buffer} {addr : ℕ} {bytes : List UInt8} (h : b.write addr bytes = some b') :
    b'.capacityField = b.capacityField ∧ b'.read addr bytes.length = some bytes := by
  rw [write] at h
  split at h
  · obtain ⟨k, hwrite, hb⟩ := Option.bind_eq_some_iff.mp h
    obtain rfl := Option.some_inj.mp hb
    exact ⟨rfl, MemoryBlock.read_written hwrite⟩
  · rename_i hnone hk
    obtain ⟨k, hwrite, hb⟩ := Option.bind_eq_some_iff.mp h
    obtain rfl := Option.some_inj.mp hb
    refine ⟨rfl, ?_⟩
    rw [read, hnone]
    exact MemoryBlock.read_written hwrite
  · rename_i hnone hk
    split_ifs at h with hnil
    obtain rfl := Option.some_inj.mp h
    refine ⟨rfl, ?_⟩
    rw [read, hnone, hk, hnil]
    rfl

/-- **`*bufferEnd = 0`** -/
lemma terminate_endByte {b b' : Buffer} (h : b.terminate = some b') : b'.endByte = some 0 := by
  rw [terminate] at h
  split_ifs at h with hnull hzero
  · obtain rfl := Option.some_inj.mp h
    rw [endByte, if_pos hnull, hzero]
    rfl
  · obtain ⟨hfield, hread⟩ := read_written h
    obtain ⟨-, hend, hbuffer⟩ := write_pointers h
    have hsame : ¬ (b'.buffer.isNone ∧ b'.bufferEnd = b'.capacityField) := by
      rw [hend, hfield, ← Option.not_isSome, hbuffer, Option.not_isSome]
      exact hnull
    rw [endByte, if_neg hsame, hend, show b'.read b.bufferEnd 1 = some [0] from hread]
    rfl

lemma fill_endByte {b b' : Buffer} {k : MemoryBlock} {data : List UInt8}
    (h : b.fill k data = some b') : b'.endByte = some 0 := by
  obtain ⟨k', -, h⟩ := Option.bind_eq_some_iff.mp h
  exact terminate_endByte h

lemma grow_endByte {A : Allocator} {b b' : Buffer} {capacity size : ℕ}
    (h : b.grow A capacity size = some b') : b'.endByte = some 0 := by
  obtain ⟨old, -, h⟩ := Option.bind_eq_some_iff.mp h
  obtain ⟨k, -, h⟩ := Option.bind_eq_some_iff.mp h
  exact terminate_endByte h

lemma assign_endByte {A : Allocator} {b b' : Buffer} {data : List UInt8}
    (hend : b.endByte = some 0) (h : b.assign A data = some b') : b'.endByte = some 0 := by
  rw [assign] at h
  split_ifs at h
  · exact fill_endByte h
  · split at h
    · rwa [← Option.some_inj.mp h]
    · exact fill_endByte h

lemma resize_endByte {A : Allocator} {b b' : Buffer} {size : ℕ} (hend : b.endByte = some 0)
    (h : b.resize A size = some b') : b'.endByte = some 0 := by
  rw [resize] at h
  split_ifs at h
  · exact grow_endByte h
  · split at h
    · rwa [← Option.some_inj.mp h]
    · split_ifs at h
      · exact terminate_endByte h
      · obtain ⟨old, -, h⟩ := Option.bind_eq_some_iff.mp h
        obtain ⟨k, -, h⟩ := Option.bind_eq_some_iff.mp h
        exact terminate_endByte h

lemma append_endByte {A : Allocator} {b b' : Buffer} {data : List UInt8}
    (h : b.append A data = some b') : b'.endByte = some 0 := by
  obtain ⟨b₁, -, h⟩ := Option.bind_eq_some_iff.mp h
  obtain ⟨b₂, -, h⟩ := Option.bind_eq_some_iff.mp h
  exact terminate_endByte h

lemma reserve_endByte {A : Allocator} {b b' : Buffer} {capacity : ℕ} (hend : b.endByte = some 0)
    (h : b.reserve A capacity = some b') : b'.endByte = some 0 := by
  rw [reserve] at h
  split_ifs at h
  · rwa [← Option.some_inj.mp h]
  · exact grow_endByte h

lemma removeBack_endByte {b b' : Buffer} {size : ℕ} (h : b.removeBack size = some b') :
    b'.endByte = some 0 := by
  rw [removeBack] at h
  split_ifs at h
  · exact terminate_endByte h
  · exact terminate_endByte h

lemma clear_endByte {b b' : Buffer} {l : List UInt8} (hb : b.Holds l) (h : b.clear = some b') :
    b'.endByte = some 0 := by
  cases hb with
  | null hf =>
    rw [← Option.some_inj.mp h]
    exact null_endByte _
  | laid hf ha hroom hle => exact terminate_endByte h

/-! ## Operations that do not -/

/-- What is behind two writes to a block is there as before. -/
lemma behind_endByte {b : Buffer} {k k₁ k₂ : MemoryBlock} {n addr₁ addr₂ : ℕ}
    {bytes₁ bytes₂ : List UInt8} (hb : b.buffer = some k₂) (hend : b.bufferEnd = k.address + n)
    (hwrite₁ : k.write addr₁ bytes₁ = some k₁) (hwrite₂ : k₁.write addr₂ bytes₂ = some k₂)
    (hle₁ : addr₁ + bytes₁.length ≤ k.address + n) (hle₂ : addr₂ + bytes₂.length ≤ k.address + n) :
    b.endByte = k.bytes[n]? := by
  obtain ⟨haddr₁, -⟩ := MemoryBlock.write_place hwrite₁
  obtain ⟨haddr₂, -⟩ := MemoryBlock.write_place hwrite₂
  rw [haddr₁] at haddr₂
  have hle : k₂.address ≤ b.bufferEnd := by
    rw [haddr₂, hend]
    exact Nat.le_add_right _ _
  have hindex : b.bufferEnd - k₂.address = n := by rw [haddr₂, hend, Nat.add_sub_cancel_left]
  rw [← haddr₁] at hle₂
  rw [endByte_block hb hle, hindex, MemoryBlock.write_behind hwrite₂ hle₂,
    MemoryBlock.write_behind hwrite₁ hle₁]

lemma prependNew_endByte {A : Allocator} {b b' : Buffer} {l data : List UInt8} (h : b.Holds l)
    (hlt : data.length + l.length + 1 < 2 ^ 64) (hrun : b.prependNew A data = some b') :
    b'.endByte = (A.new (data.length + l.length + 1)).bytes[data.length + l.length]? := by
  obtain ⟨ha, hle, hlength⟩ := new_spec A hlt
  have hrequired : wrapAdd data.length l.length = data.length + l.length := wrapAdd_eq (by omega)
  rw [prependNew, h.size, hrequired, wrapAdd_eq hlt] at hrun
  generalize A.new (data.length + l.length + 1) = k at hrun ha hle hlength
  obtain ⟨k₁, hdata, hrun⟩ := Option.bind_eq_some_iff.mp hrun
  have hcontent : b.read b.bufferStart l.length = some l := h.size ▸ h.content
  rw [hcontent, Option.bind_eq_bind, Option.bind_some] at hrun
  obtain ⟨k₂, hback, hb⟩ := Option.bind_eq_some_iff.mp hrun
  obtain rfl := Option.some_inj.mp hb
  obtain ⟨haddr₁, -⟩ := MemoryBlock.write_place hdata
  obtain ⟨haddr₂, -⟩ := MemoryBlock.write_place hback
  have hend : wrapAdd k₂.address (data.length + l.length) = k.address + (data.length + l.length) := by
    rw [haddr₂, haddr₁]
    exact wrapAdd_eq (by omega)
  have hplace : wrapAdd k₁.address data.length = k.address + data.length := by
    rw [haddr₁]
    exact wrapAdd_eq (by omega)
  exact behind_endByte rfl hend hdata hback (by omega) (by omega)

/-- **`prepend`** to the gap leaves the end alone. -/
lemma prependGap_endByte {A : Allocator} {b b' : Buffer} {l data : List UInt8} (h : b.Holds l)
    (hgap : ∃ k ∈ b.buffer, data.length ≤ b.bufferStart - k.address)
    (hrun : b.prepend A data = some b') : b'.endByte = b.endByte := by
  obtain ⟨k, hk, hin⟩ := hgap
  cases h with
  | null hf => exact absurd hk.symm (Option.some_ne_none k)
  | @laid f a gap l room hf ha hroom hle =>
    obtain rfl := Option.some_inj.mp hk
    rw [laid_bufferStart, Nat.add_sub_cancel_left] at hin
    have hgap := laid_gap (f := f) hle hroom
    have hstart : wrapSub (laid f a gap l room).bufferStart data.length
        = a + gap.length - data.length := wrapSub_eq (by rw [laid_bufferStart]; omega)
      (Nat.le_trans hin (Nat.le_add_left _ _))
    rw [prepend] at hrun
    simp only [laid_buffer, hgap, hstart] at hrun
    rw [if_pos hin] at hrun
    obtain ⟨k, hwrite, hb⟩ := Option.bind_eq_some_iff.mp hrun
    obtain rfl := Option.some_inj.mp hb
    have hle : a ≤ (laid f a gap l room).bufferEnd :=
      Nat.le_trans (Nat.le_add_right _ _) (Nat.le_add_right _ _)
    rw [endByte_block laid_buffer hle]
    have hend : a + gap.length + l.length = a + (a + gap.length + l.length - a) := by omega
    have hbefore : a + gap.length - data.length + data.length
        ≤ a + (a + gap.length + l.length - a) := by omega
    exact behind_endByte rfl hend hwrite (k.write_zero a) hbefore (Nat.le_add_right _ _)

/-- **`prepend`** elsewhere leaves the byte at the new end alone. -/
lemma prepend_endByte {A : Allocator} {b b' : Buffer} {l data : List UInt8} (h : b.Holds l)
    (hlt : data.length + l.length + 1 < 2 ^ 64)
    (hgap : ¬ ∃ k ∈ b.buffer, data.length ≤ b.bufferStart - k.address)
    (hrun : b.prepend A data = some b') :
    b'.endByte = (b.prependBlock A data.length).bytes[data.length + b.size]? := by
  have hnew : b.prependNew A data = some b' → b'.endByte
      = (A.new (data.length + l.length + 1)).bytes[data.length + l.length]? :=
    prependNew_endByte h hlt
  rw [h.size]
  cases h with
  | @null f hf =>
    have hblock : (null f).prependBlock A data.length
        = A.new (data.length + ([] : List UInt8).length + 1) := by
      rw [prependBlock, null_size hf]
      rfl
    rw [hblock]
    exact hnew hrun
  | @laid f a gap l room hf ha hroom hle =>
    have hsize := laid_size (f := f) hle hroom
    have hstart := laid_gap (f := f) hle hroom
    have hout : ¬ gap.length ≥ data.length := by
      intro hin
      refine hgap ⟨_, rfl, ?_⟩
      rw [laid_bufferStart, Nat.add_sub_cancel_left]
      exact hin
    have hrequired : wrapAdd data.length l.length = data.length + l.length :=
      wrapAdd_eq (by omega)
    rw [prepend] at hrun
    simp only [laid_buffer, hstart, hsize, hrequired, if_neg hout] at hrun
    rw [prependBlock, laid_buffer, hsize]
    dsimp only
    split_ifs at hrun ⊢ with hhere
    · rw [laid_capacity] at hhere
      obtain ⟨old, hread, hrun⟩ := Option.bind_eq_some_iff.mp hrun
      obtain ⟨k₁, hmove, hrun⟩ := Option.bind_eq_some_iff.mp hrun
      obtain ⟨k₂, hcopy, hrun⟩ := Option.bind_eq_some_iff.mp hrun
      obtain rfl := Option.some_inj.mp hrun
      have hold : old.length = l.length := MemoryBlock.read_length hread
      obtain ⟨haddr₁, -⟩ := MemoryBlock.write_place hmove
      obtain ⟨haddr₂, -⟩ := MemoryBlock.write_place hcopy
      have hplace : wrapAdd a data.length = a + data.length := wrapAdd_eq (by omega)
      have hend : wrapAdd k₂.address (data.length + l.length) = a + (data.length + l.length) := by
        rw [haddr₂, haddr₁]
        exact wrapAdd_eq (by dsimp only; omega)
      rw [hplace] at hmove
      exact behind_endByte rfl hend hmove hcopy (by dsimp only; omega)
        (by rw [haddr₁]; dsimp only; omega)
    · exact hnew hrun

/-- **`removeFront`** that takes all bytes leaves the first byte of the block alone. -/
lemma removeFront_endByte {b : Buffer} {l : List UInt8} (h : b.Holds l) {size : ℕ}
    (hfits : b.bufferStart + size < 2 ^ 64) (hend : b.endByte = some 0) :
    (b.removeFront size).endByte = some 0
      ↔ ∀ k ∈ b.buffer, size < b.size ∨ k.bytes[0]? = some 0 := by
  rw [removeFront, wrapAdd_eq hfits, h.size]
  cases h with
  | @null f hf =>
    have hge : (null f).bufferStart + size ≥ (null f).bufferEnd := Nat.le_add_right _ _
    simp only [if_pos hge]
    exact ⟨fun _ k hk => absurd hk.symm (Option.some_ne_none k), fun _ => null_endByte f⟩
  | @laid f a gap l room hf ha hroom hle =>
    simp only [laid_buffer, Option.mem_def, Option.some_inj, forall_eq']
    split_ifs with hall
    · have hsize : l.length ≤ size := Nat.le_of_add_le_add_left hall
      have hfirst : endByte { laid f a gap l room with bufferStart := a, bufferEnd := a }
          = (gap ++ l ++ room)[0]? := by
        rw [endByte_block rfl (Nat.le_refl a)]
        simp only [Nat.sub_self]
      have hiff : endByte { laid f a gap l room with bufferStart := a, bufferEnd := a } = some 0
          ↔ size < l.length ∨ (gap ++ l ++ room)[0]? = some 0 := by
        rw [hfirst]
        exact ⟨Or.inr, fun h => h.resolve_left (Nat.not_lt.mpr hsize)⟩
      exact hiff
    · have hsize : size < l.length := Nat.lt_of_add_lt_add_left (Nat.not_le.mp hall)
      exact ⟨fun _ => Or.inl hsize, fun _ => hend⟩

/-! ## Steps and runs -/

/-- **After an operation there is a zero at `bufferEnd`** just when the operation is spared. -/
theorem step_endByte (A : Allocator) {s : Option Buffer} {l : List UInt8} (h : StateHolds s l)
    (hend : ∀ b ∈ s, b.endByte = some 0) {op : Op} (hop : Called s op) (hfits : SumsFit s op)
    {b' : Buffer} (hrun : op.run A s = some b') : b'.endByte = some 0 ↔ Spared A s op := by
  cases s with
  | none =>
    refine ⟨fun _ => trivial, fun _ => ?_⟩
    cases op with
    | null f =>
      rw [← Option.some_inj.mp hrun]
      exact null_endByte f
    | ofCapacity f capacity =>
      have hterminate : ofCapacity A f capacity = some b' := hrun
      rw [ofCapacity] at hterminate
      exact terminate_endByte hterminate
    | ofBytes f data => exact fill_endByte hrun
    | _ => exact hop.elim
  | some b =>
    have hb : b.Holds l := h
    have hzero := hend b rfl
    cases op with
    | null _ => exact hop.elim
    | ofCapacity _ _ => exact hop.elim
    | ofBytes _ _ => exact hop.elim
    | prepend data =>
      have hlt : data.bytes.length + b.size + 1 < 2 ^ 64 := hfits
      rw [hb.size] at hlt
      by_cases hgap : ∃ k ∈ b.buffer, data.bytes.length ≤ b.bufferStart - k.address
      · rw [prependGap_endByte hb hgap hrun]
        exact ⟨fun _ => Or.inl hgap, fun _ => hzero⟩
      · rw [prepend_endByte hb hlt hgap hrun]
        exact ⟨Or.inr, fun hspared => hspared.resolve_left hgap⟩
    | removeFront size =>
      rw [← Option.some_inj.mp hrun]
      exact removeFront_endByte hb hfits hzero
    | assign data => exact ⟨fun _ => trivial, fun _ => assign_endByte hzero hrun⟩
    | append data => exact ⟨fun _ => trivial, fun _ => append_endByte hrun⟩
    | resize size => exact ⟨fun _ => trivial, fun _ => resize_endByte hzero hrun⟩
    | reserve capacity => exact ⟨fun _ => trivial, fun _ => reserve_endByte hzero hrun⟩
    | removeBack size => exact ⟨fun _ => trivial, fun _ => removeBack_endByte hrun⟩
    | clear => exact ⟨fun _ => trivial, fun _ => clear_endByte hb hrun⟩
    | free =>
      refine ⟨fun _ => trivial, fun _ => ?_⟩
      rw [← Option.some_inj.mp hrun]
      simp [endByte, free]

/-- The program, as far as its operations are spared -/
def terminatorSystem : System (Option Buffer) Op where
  initial s := s = none
  step s ops s' := ∃ A op b', Called s op ∧ SumsFit s op ∧ Spared A s op ∧ op.run A s = some b'
    ∧ s' = some b' ∧ ops = [op]

/-- **Every run** whose operations are spared leaves a zero at `bufferEnd` in each of its states.  In
    each of them any operation whose sums fit does so just when it is spared. -/
theorem terminated_iff {ops : List Op} {s : Option Buffer} (h : terminatorSystem.Run ops s) :
    Terminated s ∧ ∀ A op, Called s op → SumsFit s op →
      ((∃ b', op.run A s = some b' ∧ Terminated (some b')) ↔ Spared A s op) := by
  have hinv : ∃ l, StateHolds s l ∧ ∀ b ∈ s, b.endByte = some 0 := by
    refine @System.Run.invariant _ _ terminatorSystem
      (fun _ s => ∃ l, StateHolds s l ∧ ∀ b ∈ s, b.endByte = some 0) ?_ ?_ _ _ h
    · rintro s rfl
      exact ⟨[], rfl, fun b hb => absurd hb.symm (Option.some_ne_none b)⟩
    · rintro trace s es s' ⟨l, hs, hend⟩ ⟨A, op, b', hop, hfits, hspared, hrun, rfl, rfl⟩
      obtain ⟨c, l', hrun', hc, -⟩ := step_sums A hs hop hfits
      obtain rfl := Option.some_inj.mp (hrun'.symm.trans hrun)
      refine ⟨l', hc, fun b hb => ?_⟩
      obtain rfl := Option.some_inj.mp hb
      exact (step_endByte A hs hend hop hfits hrun).mpr hspared
  obtain ⟨l, hs, hend⟩ := hinv
  refine ⟨?_, fun A op hop hfits => ⟨?_, fun hspared => ?_⟩⟩
  · cases s with
    | none => trivial
    | some b => exact ⟨Holds.valid hs, hend b rfl⟩
  · rintro ⟨b', hrun, -, hzero⟩
    exact (step_endByte A hs hend hop hfits hrun).mp hzero
  · obtain ⟨b', l', hrun, hb', -⟩ := step_sums A hs hop hfits
    exact ⟨b', hrun, hb'.valid, (step_endByte A hs hend hop hfits hrun).mpr hspared⟩

/-- Two bytes, of which the first is removed -/
lemma run_spared : terminatorSystem.Run [.ofBytes 4096 ⟨8192, [97, 98]⟩, .removeFront 1]
    (some (laid 4096 1 [97] [98] [0])) := by
  have hplace : Place 4096 := ⟨by decide, by decide⟩
  have hfirst : terminatorSystem.step none [.ofBytes 4096 ⟨8192, [97, 98]⟩]
      (some (laid 4096 1 [] [97, 98] [0])) :=
    ⟨.first, .ofBytes 4096 ⟨8192, [97, 98]⟩, _, hplace, show 2 + 1 < 2 ^ 64 by decide, trivial, rfl,
      rfl, rfl⟩
  have hspared : Spared .first (some (laid 4096 1 [] [97, 98] [0])) (.removeFront 1) :=
    fun _ _ => Or.inl (by decide)
  have hsecond : terminatorSystem.step (some (laid 4096 1 [] [97, 98] [0])) [.removeFront 1]
      (some (laid 4096 1 [97] [98] [0])) :=
    ⟨.first, .removeFront 1, _, trivial, show 1 + 1 < 2 ^ 64 by decide, hspared, rfl, rfl, rfl⟩
  exact (System.Run.start rfl |>.next hfirst).next hsecond

/-- The first of two bytes is removed, and another is put in its place. -/
theorem terminated_iff_two : ∃ b', (Op.prepend ⟨12288, [99]⟩).run .first
    (some (laid 4096 1 [97] [98] [0])) = some b' ∧ Terminated (some b') := by
  obtain ⟨-, hop⟩ := terminated_iff run_spared
  have hfits : SumsFit (some (laid 4096 1 [97] [98] [0])) (.prepend ⟨12288, [99]⟩) :=
    show [(99 : UInt8)].length + (laid 4096 1 [97] [98] [0]).size + 1 < 2 ^ 64 by decide
  exact (hop .first (.prepend ⟨12288, [99]⟩) trivial hfits).mpr (Or.inl ⟨_, rfl, by decide⟩)

/-- An allocator that gives away bytes that were used before -/
def usedBytes : Allocator :=
  { Allocator.first with
    bytes := fun n => List.replicate n 255
    bytes_length := fun _ => List.length_replicate }

/-- **Without a terminator**: of two bytes both are removed, and the first of them is at `bufferEnd`;
    a byte is added before none, and behind it is what was in the new block. -/
theorem unterminated :
    (∃ b, (system Fits).Run [.ofBytes 4096 ⟨8192, [97, 98]⟩, .removeFront 2] (some b)
      ∧ b.content = some [] ∧ b.endByte = some 97)
    ∧ ∃ b, (system Fits).Run [.null 4096, .prepend ⟨8192, [97]⟩] (some b)
      ∧ b.content = some [97] ∧ b.endByte = some 255 := by
  have hplace : Place 4096 := ⟨by decide, by decide⟩
  have hbytes : Outside ⟨8192, [97, 98]⟩ 4096 :=
    ⟨Or.inr ⟨by decide, by decide⟩, Or.inr (Or.inr (by decide))⟩
  have hbyte : Beside ⟨8192, [97]⟩ (null 4096) :=
    ⟨⟨Or.inr ⟨by decide, by decide⟩, Or.inr (Or.inr (by decide))⟩,
      fun _ hk => absurd hk.symm (Option.some_ne_none _)⟩
  have hfull : (system Fits).step none [.ofBytes 4096 ⟨8192, [97, 98]⟩]
      (some (laid 4096 1 [] [97, 98] [0])) :=
    ⟨.first, .ofBytes 4096 ⟨8192, [97, 98]⟩, _, ⟨hplace, hbytes⟩, trivial, rfl, rfl, rfl⟩
  have hempty : (system Fits).step (some (laid 4096 1 [] [97, 98] [0])) [.removeFront 2]
      (some (laid 4096 1 [] [] [97, 98, 0])) :=
    ⟨.first, .removeFront 2, _, show 2 < 2 ^ 64 by decide, show 1 + 2 < 2 ^ 64 by decide, rfl, rfl,
      rfl⟩
  have hnull : (system Fits).step none [.null 4096] (some (null 4096)) :=
    ⟨.first, .null 4096, _, hplace, trivial, rfl, rfl, rfl⟩
  have hadd : (system Fits).step (some (null 4096)) [.prepend ⟨8192, [97]⟩]
      (some (laid 4096 1 [] [97] [255])) :=
    ⟨usedBytes, .prepend ⟨8192, [97]⟩, _, hbyte, trivial, rfl, rfl, rfl⟩
  refine ⟨⟨_, (System.Run.start rfl |>.next hfull).next hempty, by decide, by decide⟩,
    ⟨_, (System.Run.start rfl |>.next hnull).next hadd, by decide, by decide⟩⟩

end Nstd.Buffer
