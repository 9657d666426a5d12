import Mathlib.Algebra.Ring.Nat
import Mathlib.Data.Nat.Notation
import Mathlib.Tactic.Lemma
import Mathlib.Tactic.SplitIfs

/-!
# Blocks of bytes

* `MemoryBlock` — bytes that were allocated together, at an address.
* `MemoryBlock.read`, `MemoryBlock.write` — accesses, which fail outside of the block.
* `MemoryBlock.read_split`, `MemoryBlock.write_split` — accesses to the middle of a block that is
  seen as three parts.
* `MemoryBlock.read_written`, `MemoryBlock.write_behind` — what a write changes, and what it does not.
* `Allocator` — what an allocation may return; `Allocator.HasRoom` — where it may be.
-/

namespace Nstd

/-- Bytes that were allocated together -/
structure MemoryBlock where
  address : ℕ
  bytes : List UInt8

namespace MemoryBlock

/-- The `n` bytes from an address on -/
def read (b : MemoryBlock) (addr n : ℕ) : Option (List UInt8) :=
  if n = 0 then some []
  else if b.address ≤ addr ∧ addr + n ≤ b.address + b.bytes.length then
    some ((b.bytes.drop (addr - b.address)).take n)
  else none

/-- The block with other bytes from an address on -/
def write (b : MemoryBlock) (addr : ℕ) (bytes : List UInt8) : Option MemoryBlock :=
  if bytes = [] then some b
  else if b.address ≤ addr ∧ addr + bytes.length ≤ b.address + b.bytes.length then
    some { b with bytes := b.bytes.take (addr - b.address) ++ bytes
      ++ b.bytes.drop (addr - b.address + bytes.length) }
  else none

lemma read_zero (b : MemoryBlock) (addr : ℕ) : b.read addr 0 = some [] := rfl

lemma write_zero (b : MemoryBlock) (addr : ℕ) : b.write addr [] = some b := rfl

/-- What is read has as many bytes as were asked for. -/
lemma read_length {b : MemoryBlock} {addr n : ℕ} {l : List UInt8} (h : b.read addr n = some l) :
    l.length = n := by
  rw [read] at h
  split_ifs at h with hzero hin
  · rw [← Option.some_inj.mp h, hzero, List.length_nil]
  · rw [← Option.some_inj.mp h, List.length_take, List.length_drop]
    omega

lemma read_split {b : MemoryBlock} {addr : ℕ} {xs ys zs : List UInt8}
    (hb : b.bytes = xs ++ ys ++ zs) (haddr : addr = b.address + xs.length) :
    b.read addr ys.length = some ys := by
  by_cases hys : ys = []
  · rw [hys, List.length_nil, read_zero]
  · have hpos : ys.length ≠ 0 := fun h => hys (List.eq_nil_of_length_eq_zero h)
    have hin : b.address ≤ addr ∧ addr + ys.length ≤ b.address + b.bytes.length := by
      rw [hb, haddr, List.length_append, List.length_append]
      omega
    rw [read, if_neg hpos, if_pos hin, haddr, Nat.add_sub_cancel_left, hb, List.append_assoc,
      List.drop_left, List.take_left]

lemma write_split {b : MemoryBlock} {addr : ℕ} {xs ys ys' zs : List UInt8}
    (hb : b.bytes = xs ++ ys ++ zs) (haddr : addr = b.address + xs.length)
    (h : ys'.length = ys.length) : b.write addr ys' = some ⟨b.address, xs ++ ys' ++ zs⟩ := by
  by_cases hys : ys' = []
  · have hnil : ys = [] := List.eq_nil_of_length_eq_zero (by rw [← h, hys, List.length_nil])
    rw [write, if_pos hys, hys, ← hnil, ← hb]
  · have hin : b.address ≤ addr ∧ addr + ys'.length ≤ b.address + b.bytes.length := by
      rw [hb, haddr, h, List.length_append, List.length_append]
      omega
    have htake : b.bytes.take xs.length = xs := by
      rw [hb, List.append_assoc, List.take_left]
    have hdrop : b.bytes.drop (xs.length + ys'.length) = zs := by
      rw [hb, h, ← List.length_append, List.drop_left]
    rw [write, if_neg hys, if_pos hin, haddr, Nat.add_sub_cancel_left, htake, hdrop]

/-- The first bytes are others. -/
lemma write_front {b : MemoryBlock} {ys ys' zs : List UInt8} (hb : b.bytes = ys ++ zs)
    (h : ys'.length = ys.length) : b.write b.address ys' = some ⟨b.address, ys' ++ zs⟩ := by
  have hsplit : b.bytes = [] ++ ys ++ zs := hb
  have haddr : b.address = b.address + ([] : List UInt8).length := rfl
  exact write_split hsplit haddr h

/-- A block stays where it is. -/
lemma write_place {b b' : MemoryBlock} {addr : ℕ} {bytes : List UInt8}
    (h : b.write addr bytes = some b') :
    b'.address = b.address ∧ b'.bytes.length = b.bytes.length := by
  rw [write] at h
  split_ifs at h with hnil hin
  · obtain rfl := Option.some_inj.mp h
    exact ⟨rfl, rfl⟩
  · obtain rfl := Option.some_inj.mp h
    refine ⟨rfl, ?_⟩
    simp only [List.length_append, List.length_take, List.length_drop]
    omega

/-- What was written is read. -/
lemma read_written {b b' : MemoryBlock} {addr : ℕ} {bytes : List UInt8}
    (h : b.write addr bytes = some b') : b'.read addr bytes.length = some bytes := by
  rw [write] at h
  split_ifs at h with hnil hin
  · rw [hnil, List.length_nil, read_zero]
  · obtain rfl := Option.some_inj.mp h
    have hstart : addr = b.address + (b.bytes.take (addr - b.address)).length := by
      rw [List.length_take_of_le (by omega)]
      omega
    exact read_split rfl hstart

/-- Bytes behind those that are written stay as they are. -/
lemma write_behind {b b' : MemoryBlock} {addr i : ℕ} {bytes : List UInt8}
    (h : b.write addr bytes = some b') (hi : addr + bytes.length ≤ b.address + i) :
    b'.bytes[i]? = b.bytes[i]? := by
  rw [write] at h
  split_ifs at h with hnil hin
  · rw [Option.some_inj.mp h]
  · obtain rfl := Option.some_inj.mp h
    have hlength : (b.bytes.take (addr - b.address) ++ bytes).length
        = addr - b.address + bytes.length := by
      rw [List.length_append, List.length_take_of_le (by omega)]
    rw [List.getElem?_append_right (by omega), hlength, List.getElem?_drop]
    congr 1
    omega

/-- More bytes than there are in a block are not written. -/
lemma write_long {b : MemoryBlock} {bytes : List UInt8} (h : b.bytes.length < bytes.length)
    (addr : ℕ) : b.write addr bytes = none := by
  have hne : bytes ≠ [] := fun hnil => by
    rw [hnil] at h
    exact Nat.not_lt_zero _ h
  rw [write, if_neg hne, if_neg (by omega)]

/-- Nothing is written to a block without bytes. -/
lemma write_nil (a addr : ℕ) {bytes : List UInt8} (h : bytes ≠ []) :
    write ⟨a, []⟩ addr bytes = none := by
  have hpos : bytes.length ≠ 0 := fun hz => h (List.eq_nil_of_length_eq_zero hz)
  rw [write, if_neg h, if_neg]
  simp only [List.length_nil]
  omega

end MemoryBlock

/-- The blocks that an allocator gives away: they have the requested number of bytes, which may be
    any bytes, and fit in the address space. -/
structure Allocator where
  address : ℕ → ℕ
  bytes : ℕ → List UInt8
  address_pos : ∀ n, 0 < address n
  address_le : ∀ n < 2 ^ 64, address n + n ≤ 2 ^ 64
  bytes_length : ∀ n, (bytes n).length = n

/-- For so many bytes, or fewer, there is room before an address. -/
def Allocator.HasRoom (A : Allocator) (n limit : ℕ) : Prop := ∀ m ≤ n, A.address m + m ≤ limit

/-- An allocator that always gives away the first bytes there are -/
def Allocator.first : Allocator where
  address _ := 1
  bytes n := List.replicate n 0
  address_pos _ := Nat.one_pos
  address_le n hn := by omega
  bytes_length _ := List.length_replicate

/-- `new char[n]` -/
def Allocator.new (A : Allocator) (n : ℕ) : MemoryBlock := ⟨A.address n, A.bytes n⟩

/-- Bytes that can be taken apart after the `n`th of them -/
lemma exists_split {l : List UInt8} {n : ℕ} (h : n ≤ l.length) : ∃ xs ys, l = xs ++ ys ∧ xs.length = n :=
  ⟨l.take n, l.drop n, (List.take_append_drop n l).symm, List.length_take_of_le h⟩

end Nstd
