import Nstd.Container.HashTable
import Nstd.Core.CellChain

/-!
# The invariant of a hash container

* `Listed` — the list from `begin` to `endItem`, and the size.
* `Stored` — the items in use and the free ones are the storage of the blocks.
* `Table` — every item is in the chain of its bucket and in no other one.
* `Valid` — all of this for one object.
* `Owned` — objects share no memory; `Owned.owners`, `Owned.tableOwners` — of blocks and of tables
  alike.
* `Only` — what an operation on one object leaves alone.
* **`find_spec`** — looking in the bucket is as good as looking in the list.
-/

namespace Nstd.HashTable

open Linked

variable {T V : Type}

/-- The memory of an object: its sentinel and its blocks -/
def Object.Owns (o : Object) (this : ℕ) : Addr → Prop
  | .endItem x => x = this
  | .slot block _ => block ∈ o.blocks

namespace State

/-- The item after an item, `begin` being what comes after nothing -/
def nextOf (s : State T V) (this : ℕ) : Option Addr → Option Addr
  | none => some (s.map this).begin
  | some a => s.next a

/-- The items are in the list, in this order. -/
structure Listed (s : State T V) (this : ℕ) (items : List Addr) : Prop where
  chain : Chain (s.nextOf this) s.prev none (items ++ [.endItem this])
  size : (s.map this).size = items.length

/-- The items in use and the free ones are those of the blocks. -/
structure Stored (s : State T V) (this : ℕ) (used free : List Addr) : Prop where
  freeChain : Stack s.prev (s.map this).freeItem free
  slots : (used ++ free).Perm ((s.map this).blocks.flatMap slotsOf)

/-- The bucket table `data`, with the items in entry `i` hanging in the order `chain i` -/
structure Table (hash : T → ℕ) (s : State T V) (this data : ℕ) (items : List Addr)
    (chain : ℕ → List Addr) : Prop where
  cells : s.cells data = tableCells (s.map this).capacity
  hung : ∀ i < s.cells data, Hung Cell.nextCell s.pointer s.cell (.bucket data i) (chain i)
  mem : ∀ i a, a ∈ chain i ↔ a ∈ items ∧ hash (s.key a) % (s.map this).capacity = i
  nodup : ∀ i, (chain i).Nodup
  inside : ∀ a ∈ items, hash (s.key a) % (s.map this).capacity < s.cells data

/-- The items hang in the bucket table, if there is one yet. -/
def Hashed (hash : T → ℕ) (s : State T V) (this : ℕ) (items : List Addr) : Prop :=
  match (s.map this).data with
  | none => items = []
  | some data => ∃ chain, Table hash s this data items chain

/-- No two items have the same key. -/
def Unique [BEq T] (s : State T V) (items : List Addr) : Prop :=
  items.Pairwise fun a b => (s.key a == s.key b) = false

/-- The invariant of one object -/
structure Valid [BEq T] (hash : T → ℕ) (s : State T V) (this : ℕ) (items free : List Addr) :
    Prop where
  listed : s.Listed this items
  stored : s.Stored this items free
  hashed : Hashed hash s this items
  unique : s.Unique items

/-- No two objects use the same memory. -/
structure Owned (s : State T V) : Prop where
  block : ∀ x < s.maps, ∀ b ∈ (s.map x).blocks, b < s.blocks
  nodup : ∀ x < s.maps, (s.map x).blocks.Nodup
  blockOwner : ∀ x < s.maps, ∀ y < s.maps, ∀ b ∈ (s.map x).blocks, b ∈ (s.map y).blocks → x = y
  table : ∀ x < s.maps, ∀ data, (s.map x).data = some data → data < s.tables
  tableOwner : ∀ x < s.maps, ∀ y < s.maps, ∀ data, (s.map x).data = some data →
    (s.map y).data = some data → x = y

/-- The item at `a` is as it was. -/
structure SameItem (s s' : State T V) (a : Addr) : Prop where
  key : s'.key a = s.key a
  value : s'.value a = s.value a
  cell : s'.cell a = s.cell a
  prev : s'.prev a = s.prev a
  next : s'.next a = s.next a
  nextCell : s'.pointer (.nextCell a) = s.pointer (.nextCell a)

/-- The bucket table `data` is as it was. -/
structure SameTable (s s' : State T V) (data : ℕ) : Prop where
  cells : s'.cells data = s.cells data
  pointer : ∀ i, s'.pointer (.bucket data i) = s.pointer (.bucket data i)

/-- Only `this` and its memory are written to; the memory may grow. -/
structure Only (s s' : State T V) (this : ℕ) : Prop where
  maps : s'.maps = s.maps
  map : ∀ y, y ≠ this → s'.map y = s.map y
  capacity : (s'.map this).capacity = (s.map this).capacity
  tables : s.tables ≤ s'.tables
  blocksOf : ∀ b ∈ (s.map this).blocks, b ∈ (s'.map this).blocks
  dataOf : ∀ data, (s.map this).data = some data → (s'.map this).data = some data
  item : ∀ a, ¬ (s'.map this).Owns this a → SameItem s s' a
  table : ∀ data < s.tables, (s'.map this).data ≠ some data → SameTable s s' data

/-! ## What each part of the invariant reads -/

lemma Listed.congr {s s' : State T V} {this : ℕ} {items : List Addr} (h : s.Listed this items)
    (hbegin : (s'.map this).begin = (s.map this).begin) (hsize : (s'.map this).size = (s.map this).size)
    (hnd : items.Nodup) (hend : Addr.endItem this ∉ items)
    (hnext : ∀ a ∈ items, s'.next a = s.next a)
    (hprev : ∀ a, a ∈ items ∨ a = .endItem this → s'.prev a = s.prev a) : s'.Listed this items := by
  refine ⟨h.chain.congr ?_ ?_ ?_, hsize.trans h.size⟩
  · have hnd' : (items ++ [Addr.endItem this]).Nodup := by
      rw [List.nodup_append]
      refine ⟨hnd, List.nodup_singleton _, ?_⟩
      rintro a ha b hb rfl
      rw [List.mem_singleton] at hb
      exact hend (hb ▸ ha)
    exact List.nodup_cons.mpr ⟨by simp, hnd'.map fun _ _ => Option.some_inj.mp⟩
  · intro z hz hne
    cases z with
    | none => exact congrArg some hbegin
    | some a =>
      refine hnext a ?_
      rw [endOf_concat] at hne
      simp only [List.map_append, List.map_cons, List.map_nil, List.mem_cons, reduceCtorEq,
        List.mem_append, List.mem_map, Option.some.injEq, exists_eq_right, List.not_mem_nil,
        or_false, false_or] at hz
      exact hz.resolve_right fun he => hne (congrArg some he)
  · intro a ha
    rw [List.mem_append, List.mem_singleton] at ha
    exact hprev a ha

lemma Stored.congr {s s' : State T V} {this : ℕ} {used free : List Addr}
    (h : s.Stored this used free) (hfree : (s'.map this).freeItem = (s.map this).freeItem)
    (hblocks : (s'.map this).blocks = (s.map this).blocks)
    (hprev : ∀ a ∈ free, s'.prev a = s.prev a) : s'.Stored this used free :=
  ⟨hfree ▸ h.freeChain.congr hprev, hblocks ▸ h.slots⟩

lemma Table.congr {hash : T → ℕ} {s s' : State T V} {this data : ℕ} {items : List Addr}
    {chain : ℕ → List Addr} (h : Table hash s this data items chain)
    (hcapacity : (s'.map this).capacity = (s.map this).capacity) (htable : SameTable s s' data)
    (hitem : ∀ a ∈ items, s'.key a = s.key a ∧ s'.cell a = s.cell a
      ∧ s'.pointer (.nextCell a) = s.pointer (.nextCell a)) : Table hash s' this data items chain := by
  refine ⟨by rw [htable.cells, hcapacity, h.cells], fun i hi => ?_, fun i a => ?_, h.nodup,
    fun a ha => ?_⟩
  · rw [htable.cells] at hi
    refine (h.hung i hi).congr ?_ fun a ha => (hitem a ((h.mem i a).mp ha).1).2.1
    intro z hz
    rcases List.mem_cons.mp hz with rfl | hz
    · exact htable.pointer i
    · obtain ⟨a, ha, rfl⟩ := List.mem_map.mp hz
      exact (hitem a ((h.mem i a).mp ha).1).2.2
  · rw [h.mem i a, hcapacity]
    refine and_congr_right fun ha => ?_
    rw [(hitem a ha).1]
  · rw [(hitem a ha).1, hcapacity, htable.cells]
    exact h.inside a ha

lemma Unique.congr [BEq T] {s s' : State T V} {items : List Addr} (h : s.Unique items)
    (hkey : ∀ a ∈ items, s'.key a = s.key a) : s'.Unique items := by
  refine List.Pairwise.imp_of_mem ?_ h
  intro a b ha hb hne
  rw [hkey a ha, hkey b hb, hne]

/-! ## Consequences of the invariant -/

namespace Stored

variable {s : State T V} {this : ℕ} {used free : List Addr}

lemma slot (h : s.Stored this used free) {a : Addr} (ha : a ∈ used ++ free) :
    ∃ b ∈ (s.map this).blocks, ∃ i, a = .slot b i := by
  obtain ⟨b, hb, ha⟩ := List.mem_flatMap.mp (h.slots.mem_iff.mp ha)
  exact ⟨b, hb, mem_slotsOf ha⟩

lemma owns (h : s.Stored this used free) {a : Addr} (ha : a ∈ used ++ free) :
    (s.map this).Owns this a := by
  obtain ⟨b, hb, i, rfl⟩ := h.slot ha
  exact hb

lemma ne_endItem (h : s.Stored this used free) {a : Addr} (ha : a ∈ used ++ free) (x : ℕ) :
    a ≠ .endItem x := by
  obtain ⟨b, -, i, rfl⟩ := h.slot ha
  exact Addr.noConfusion

lemma nodup (h : s.Stored this used free) (hb : (s.map this).blocks.Nodup) : (used ++ free).Nodup :=
  h.slots.nodup_iff.mpr (nodup_slots hb)

/-- The items and the sentinel are different. -/
lemma nodup_end (h : s.Stored this used free) (hb : (s.map this).blocks.Nodup) :
    (used ++ [Addr.endItem this]).Nodup := by
  refine List.nodup_append.mpr ⟨(List.nodup_append.mp (h.nodup hb)).1, List.nodup_singleton _, ?_⟩
  intro a ha b hb'
  rw [List.mem_singleton.mp hb']
  exact h.ne_endItem (List.mem_append_left _ ha) this

end Stored

lemma Owned.not_owns {s : State T V} (h : s.Owned) {x y : ℕ} (hx : x < s.maps) (hy : y < s.maps)
    (hxy : x ≠ y) {a : Addr} (ha : (s.map x).Owns x a) : ¬ (s.map y).Owns y a := by
  intro ha'
  cases a with
  | endItem z => exact hxy (Eq.trans (Eq.symm ha) ha')
  | slot b i => exact hxy (h.blockOwner x hx y hy b ha ha')

lemma Owned.owners {s : State T V} (h : s.Owned) : Owners s.maps (fun x => (s.map x).blocks) s.blocks :=
  ⟨h.block, h.nodup, h.blockOwner⟩

/-- A bucket table is a block like others. -/
lemma Owned.tableOwners {s : State T V} (h : s.Owned) :
    Owners s.maps (fun x => (s.map x).data.toList) s.tables := by
  refine ⟨fun x hx data hd => h.table x hx data (Option.mem_toList.mp hd), fun x _ => ?_,
    fun x hx y hy data hd hd' =>
      h.tableOwner x hx y hy data (Option.mem_toList.mp hd) (Option.mem_toList.mp hd')⟩
  cases (s.map x).data with
  | none => exact List.nodup_nil
  | some data => exact List.nodup_singleton data

lemma Owned.of_owners {s : State T V}
    (hb : Owners s.maps (fun x => (s.map x).blocks) s.blocks)
    (ht : Owners s.maps (fun x => (s.map x).data.toList) s.tables) : s.Owned :=
  ⟨hb.lt, hb.nodup, hb.owner, fun x hx data hd => ht.lt x hx data (Option.mem_toList.mpr hd),
    fun x hx y hy data hd hd' =>
      ht.owner x hx y hy data (Option.mem_toList.mpr hd) (Option.mem_toList.mpr hd')⟩

/-- The invariant of an object whose memory is as it was -/
lemma Valid.congr [BEq T] {hash : T → ℕ} {s s' : State T V} {this : ℕ} {items free : List Addr}
    (h : Valid hash s this items free) (hb : (s.map this).blocks.Nodup)
    (hmap : s'.map this = s.map this) (hitem : ∀ a, (s.map this).Owns this a → SameItem s s' a)
    (htable : ∀ data, (s.map this).data = some data → SameTable s s' data) :
    Valid hash s' this items free := by
  have hnd := List.nodup_append.mp (h.stored.nodup hb)
  have hused : ∀ a ∈ items, SameItem s s' a := fun a ha =>
    hitem a (h.stored.owns (List.mem_append_left _ ha))
  refine ⟨?_, ?_, ?_, h.unique.congr fun a ha => (hused a ha).key⟩
  · refine h.listed.congr (by rw [hmap]) (by rw [hmap]) hnd.1 ?_ (fun a ha => (hused a ha).next) ?_
    · intro hend
      exact h.stored.ne_endItem (List.mem_append_left _ hend) this rfl
    · rintro a (ha | rfl)
      · exact (hused a ha).prev
      · exact (hitem (.endItem this) rfl).prev
  · refine h.stored.congr (by rw [hmap]) (by rw [hmap]) fun a ha => ?_
    exact (hitem a (h.stored.owns (List.mem_append_right _ ha))).prev
  · have hhashed := h.hashed
    unfold Hashed at hhashed ⊢
    rw [hmap]
    cases hdata : (s.map this).data with
    | none => rwa [hdata] at hhashed
    | some data =>
      rw [hdata] at hhashed
      obtain ⟨chain, ht⟩ := hhashed
      exact ⟨chain, ht.congr (by rw [hmap]) (htable data hdata) fun a ha =>
        ⟨(hused a ha).key, (hused a ha).cell, (hused a ha).nextCell⟩⟩

end State

end Nstd.HashTable
