import Mathlib.Data.List.Perm.Basic
import Nstd.Container.LinkedList
import Nstd.Core.Entries

/-!
# The invariant of lists

* `Holds` — an object with its entries: the chain of them, the size, the chain of free items, and that
  these are the items of its blocks.
* `Owned` — no two objects have the same block, and new blocks are raw memory.
* `Only` — what an operation on one object leaves alone.
* `Rewired` — what it writes, if it allocates nothing.
-/

namespace Nstd.LinkedList

open Linked
open Entries

variable {V : Type}

/-- Entries of a list: an item and its value -/
abbrev Item (V : Type) := Entry Addr V Unit

/-- The memory of an object: its sentinel and its blocks -/
def Object.Owns (o : Object) (this : ℕ) : Addr → Prop
  | .endItem x => x = this
  | .slot block _ => block ∈ o.blocks

namespace State

/-- The item after an item, `begin` being what comes after nothing -/
def nextOf (s : State V) (this : ℕ) : Option Addr → Option Addr
  | none => some (s.list this).begin
  | some a => s.next a

/-- **An object and its entries.**  The chain says too that the sentinel knows the last item, or none
    if there is none. -/
structure Holds (s : State V) (this : ℕ) (l : List (Item V)) (free : List Addr) : Prop where
  chain : Chain (s.nextOf this) s.prev none (names l ++ [.endItem this])
  size : (s.list this).size = l.length
  freeChain : Stack s.prev (s.list this).freeItem free
  slots : (names l ++ free).Perm ((s.list this).blocks.flatMap slotsOf)
  values : ∀ e ∈ l, s.value e.name = some e.key
  raw : ∀ a ∈ free, s.value a = none

/-- No two objects use the same memory, and what is not allocated yet has no objects in it. -/
structure Owned (s : State V) : Prop where
  owners : Owners s.lists (fun x => (s.list x).blocks) s.blocks
  fresh : ∀ b, s.blocks ≤ b → ∀ i, s.value (.slot b i) = none

/-- The item at `a` is as it was. -/
structure SameItem (s s' : State V) (a : Addr) : Prop where
  value : s'.value a = s.value a
  prev : s'.prev a = s.prev a
  next : s'.next a = s.next a

/-- Only `this` and its memory are written to; the memory may grow. -/
structure Only (s s' : State V) (this : ℕ) : Prop where
  lists : s'.lists = s.lists
  list : ∀ y, y ≠ this → s'.list y = s.list y
  blocksOf : ∀ b ∈ (s.list this).blocks, b ∈ (s'.list this).blocks
  item : ∀ a, ¬ (s'.list this).Owns this a → SameItem s s' a

lemma Object.owns_mono {o o' : Object} (h : ∀ b ∈ o.blocks, b ∈ o'.blocks) {this : ℕ} {a : Addr}
    (ha : o.Owns this a) : o'.Owns this a := by
  cases a with
  | endItem x => exact ha
  | slot block i => exact h block ha

lemma Only.refl (s : State V) (this : ℕ) : Only s s this :=
  ⟨rfl, fun _ _ => rfl, fun _ hb => hb, fun _ _ => ⟨rfl, rfl, rfl⟩⟩

/-! ## Consequences of the invariant -/

namespace Holds

variable {s s' : State V} {this : ℕ} {l : List (Item V)} {free : List Addr}

lemma slot (h : s.Holds this l free) {a : Addr} (ha : a ∈ names l ++ free) :
    ∃ b ∈ (s.list this).blocks, ∃ i, a = .slot b i := by
  obtain ⟨b, hb, ha⟩ := List.mem_flatMap.mp (h.slots.mem_iff.mp ha)
  exact ⟨b, hb, mem_slotsOf ha⟩

lemma owns (h : s.Holds this l free) {a : Addr} (ha : a ∈ names l ++ free) :
    (s.list this).Owns this a := by
  obtain ⟨b, hb, i, rfl⟩ := h.slot ha
  exact hb

lemma ne_endItem (h : s.Holds this l free) {a : Addr} (ha : a ∈ names l ++ free) (x : ℕ) :
    a ≠ .endItem x := by
  obtain ⟨b, -, i, rfl⟩ := h.slot ha
  exact Addr.noConfusion

lemma nodup (h : s.Holds this l free) (hb : (s.list this).blocks.Nodup) : (names l ++ free).Nodup :=
  h.slots.nodup_iff.mpr (nodup_slots hb)

/-- The items and the sentinel are different. -/
lemma nodup_end (h : s.Holds this l free) (hb : (s.list this).blocks.Nodup) :
    (names l ++ [Addr.endItem this]).Nodup := by
  refine List.nodup_append.mpr ⟨(List.nodup_append.mp (h.nodup hb)).1, List.nodup_singleton _, ?_⟩
  intro a ha b hb'
  rw [List.mem_singleton.mp hb']
  exact h.ne_endItem (List.mem_append_left _ ha) this

/-- A free item is not in the list, nor is it the sentinel. -/
lemma ne_free (h : s.Holds this l free) (hb : (s.list this).blocks.Nodup) {a b : Addr}
    (ha : a ∈ names l ++ [Addr.endItem this]) (hfree : b ∈ free) : b ≠ a := by
  rintro rfl
  rcases List.mem_append.mp ha with hmem | hmem
  · exact (List.nodup_append.mp (h.nodup hb)).2.2 b hmem b hfree rfl
  · exact h.ne_endItem (List.mem_append_right _ hfree) this (List.mem_singleton.mp hmem)

/-- The chain of an object whose items are as they were -/
lemma chain_congr (h : s.Holds this l free) (hb : (s.list this).blocks.Nodup)
    (hbegin : (s'.list this).begin = (s.list this).begin)
    (hitem : ∀ a ∈ names l ++ [Addr.endItem this], s'.prev a = s.prev a ∧ s'.next a = s.next a) :
    Chain (s'.nextOf this) s'.prev none (names l ++ [.endItem this]) := by
  refine h.chain.congr (nodup_optional (h.nodup_end hb)) ?_ fun a ha => (hitem a ha).1
  intro z hz _
  cases z with
  | none => exact congrArg some hbegin
  | some a => exact (hitem a (mem_optional hz)).2

/-- The invariant of an object whose memory is as it was -/
lemma congr (h : s.Holds this l free) (hb : (s.list this).blocks.Nodup)
    (hlist : s'.list this = s.list this)
    (hitem : ∀ a, (s.list this).Owns this a → SameItem s s' a) : s'.Holds this l free := by
  have hown : ∀ a ∈ names l ++ [Addr.endItem this], SameItem s s' a := by
    intro a ha
    rcases List.mem_append.mp ha with hmem | hmem
    · exact hitem a (h.owns (List.mem_append_left _ hmem))
    · rw [List.mem_singleton.mp hmem]
      exact hitem _ rfl
  refine ⟨h.chain_congr hb (congrArg Object.begin hlist) fun a ha => ⟨(hown a ha).prev, (hown a ha).next⟩,
    hlist ▸ h.size, ?_, hlist ▸ h.slots, fun e he => ?_, fun a ha => ?_⟩
  · rw [hlist]
    exact h.freeChain.congr fun a ha => (hitem a (h.owns (List.mem_append_right _ ha))).prev
  · have ha : e.name ∈ names l := List.mem_map_of_mem he
    rw [(hown e.name (List.mem_append_left _ ha)).value]
    exact h.values e he
  · rw [(hitem a (h.owns (List.mem_append_right _ ha))).value]
    exact h.raw a ha

end Holds

lemma Owned.nodup {s : State V} (h : s.Owned) {x : ℕ} (hx : x < s.lists) :
    (s.list x).blocks.Nodup := h.owners.nodup x hx

lemma Owned.not_owns {s : State V} (h : s.Owned) {x y : ℕ} (hx : x < s.lists) (hy : y < s.lists)
    (hxy : x ≠ y) {a : Addr} (ha : (s.list x).Owns x a) : ¬ (s.list y).Owns y a := by
  intro ha'
  cases a with
  | endItem z => exact hxy (Eq.trans (Eq.symm ha) ha')
  | slot b i => exact hxy (h.owners.owner x hx y hy b ha ha')

/-! ## One object is written to -/

/-- **What an operation on one object writes**: links, values, and fields of the object. -/
structure Rewired (s s' : State V) (this : ℕ) (next : Option Addr → Option Addr)
    (prev : Addr → Option Addr) (value : Addr → Option V) (freeItem : Option Addr) (size : ℕ) :
    Prop where
  nextOf : s'.nextOf this = next
  prev : s'.prev = prev
  value : s'.value = value
  object : ∃ begin, s'.list this = { s.list this with begin, freeItem, size }
  list : ∀ y, y ≠ this → s'.list y = s.list y
  lists : s'.lists = s.lists
  blocks : s'.blocks = s.blocks

namespace Rewired

variable {s s' : State V} {this size : ℕ} {next : Option Addr → Option Addr}
  {prev : Addr → Option Addr} {value : Addr → Option V} {freeItem : Option Addr}

lemma blocksOf (h : Rewired s s' this next prev value freeItem size) (x : ℕ) :
    (s'.list x).blocks = (s.list x).blocks := by
  by_cases hx : x = this
  · obtain ⟨begin, hobject⟩ := h.object
    rw [hx, hobject]
  · rw [h.list x hx]

/-- It is only that object, if what it owns is written to and nothing else. -/
lemma only (h : Rewired s s' this next prev value freeItem size)
    (hsame : ∀ a, ¬ (s.list this).Owns this a →
      value a = s.value a ∧ prev a = s.prev a ∧ next (some a) = s.next a) : Only s s' this := by
  refine ⟨h.lists, h.list, fun b hb => h.blocksOf this ▸ hb, fun a ha => ?_⟩
  obtain ⟨hvalue, hprev, hnext⟩ := hsame a fun hown =>
    ha (Object.owns_mono (fun b hb => h.blocksOf this ▸ hb) hown)
  exact ⟨h.value ▸ hvalue, h.prev ▸ hprev, (congrFun h.nextOf (some a)).trans hnext⟩

lemma owned (h : Rewired s s' this next prev value freeItem size) (ho : s.Owned)
    (hthis : this < s.lists)
    (hsame : ∀ a, ¬ (s.list this).Owns this a → value a = s.value a) : s'.Owned := by
  refine ⟨?_, fun b hb i => ?_⟩
  · rw [h.lists, h.blocks, show (fun x => (s'.list x).blocks) = fun x => (s.list x).blocks from
      funext h.blocksOf]
    exact ho.owners
  · rw [h.blocks] at hb
    rw [h.value, hsame, ho.fresh b hb i]
    exact fun hown => absurd (ho.owners.lt this hthis b hown) (Nat.not_lt_of_le hb)

end Rewired

end State

end Nstd.LinkedList
