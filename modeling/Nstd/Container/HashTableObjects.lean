import Mathlib.Logic.Equiv.Basic
import Nstd.Container.HashTableRemove

/-!
# Hash containers that are created and swapped

* **`create_spec`** — a new object.
* `Takes` — what an object becomes that takes over what another one has.
* **`swap_spec`** — two objects exchange their items; `swap_self` — or an object with itself.
-/

namespace Nstd.HashTable

open Linked

variable {T V : Type}

namespace State

section Objects

variable {s s' : State T V} {x y this other : ℕ} {items free : List Addr} {hash : T → ℕ}

/-! ## Creating -/

variable [BEq T]

/-- **A new object** has no items, and the others are as they were. -/
theorem create_spec (ho : s.Owned) (capacity : ℕ) :
    (s.create capacity).Owned ∧ Valid hash (s.create capacity) s.maps [] []
      ∧ ∀ x < s.maps, ∀ items free, Valid hash s x items free →
        Valid hash (s.create capacity) x items free := by
  have hmap : (s.create capacity).map s.maps
      = ⟨.endItem s.maps, 0, capacity ||| (if capacity = 0 then 1 else 0), none, none, []⟩ :=
    Function.update_self ..
  refine ⟨.of_owners ?_ ?_, ⟨⟨⟨?_, Function.update_self .., trivial⟩, ?_⟩, ⟨?_, ?_⟩, ?_,
    List.Pairwise.nil⟩, ?_⟩
  · have hblocks : (fun x => ((s.create capacity).map x).blocks)
        = Function.update (fun x => (s.map x).blocks) s.maps [] := by
      funext x
      simp only [create, Function.update_apply]
      split <;> rfl
    rw [hblocks]
    exact ho.owners.create
  · have htables : (fun x => ((s.create capacity).map x).data.toList)
        = Function.update (fun x => (s.map x).data.toList) s.maps [] := by
      funext x
      simp only [create, Function.update_apply]
      split <;> rfl
    rw [htables]
    exact ho.tableOwners.create
  · rw [nextOf, hmap]
  · rw [hmap, List.length_nil]
  · rw [hmap]
    rfl
  · rw [hmap]
    rfl
  · unfold Hashed
    rw [hmap]
  · intro x hx items free h
    have hxs : x ≠ s.maps := Nat.ne_of_lt hx
    refine h.congr (ho.nodup x hx) (Function.update_of_ne hxs ..) (fun a ha => ?_)
      fun data _ => ⟨rfl, fun _ => rfl⟩
    have haEnd : a ≠ .endItem s.maps := by
      rintro rfl
      exact hxs ha.symm
    exact ⟨rfl, rfl, rfl, Function.update_of_ne haEnd .., Function.update_of_ne haEnd .., rfl⟩

/-! ## Swapping -/

omit [BEq T]

/-- **What an object becomes** that takes over the fields `o` and the items up to `last` -/
structure Takes (s' : State T V) (x : ℕ) (o : Object) (last : Option Addr) : Prop where
  size : (s'.map x).size = o.size
  capacity : (s'.map x).capacity = o.capacity
  data : (s'.map x).data = o.data
  freeItem : (s'.map x).freeItem = o.freeItem
  blocks : (s'.map x).blocks = o.blocks
  begin : last ≠ none → (s'.map x).begin = o.begin
  prevEnd : s'.prev (.endItem x) = last
  nextLast : s'.nextOf x last = some (.endItem x)

/-- Keys, values and buckets are as they were, and nothing is allocated. -/
structure SameElse (s s' : State T V) : Prop where
  key : s'.key = s.key
  value : s'.value = s.value
  cell : s'.cell = s.cell
  pointer : s'.pointer = s.pointer
  cells : s'.cells = s.cells
  maps : s'.maps = s.maps
  tables : s'.tables = s.tables
  blocks : s'.blocks = s.blocks

lemma SameElse.trans {s'' : State T V} (h : SameElse s s') (h' : SameElse s' s'') : SameElse s s'' :=
  ⟨h'.key.trans h.key, h'.value.trans h.value, h'.cell.trans h.cell, h'.pointer.trans h.pointer,
    h'.cells.trans h.cells, h'.maps.trans h.maps, h'.tables.trans h.tables,
    h'.blocks.trans h.blocks⟩

lemma Takes.congr {s'' : State T V} {o : Object} {last : Option Addr} (h : Takes s' x o last)
    (hmap : s''.map x = s'.map x) (hprev : s''.prev (.endItem x) = s'.prev (.endItem x))
    (hnext : ∀ a, some a = last → s''.next a = s'.next a) : Takes s'' x o last := by
  refine ⟨hmap ▸ h.size, hmap ▸ h.capacity, hmap ▸ h.data, hmap ▸ h.freeItem, hmap ▸ h.blocks,
    hmap ▸ h.begin, hprev.trans h.prevEnd, ?_⟩
  rw [← h.nextLast]
  cases last with
  | none => exact congrArg (fun o => some o.begin) hmap
  | some a => exact hnext a rfl

/-- What one half of `swap` writes -/
lemma take_run (s : State T V) (this : ℕ) (o : Object) (last : Option Addr) :
    Takes (s.take this o last) this o last
      ∧ (∀ a, some a ≠ last → (s.take this o last).next a = s.next a)
      ∧ (∀ a, a ≠ .endItem this → (s.take this o last).prev a = s.prev a)
      ∧ (∀ z, z ≠ this → (s.take this o last).map z = s.map z)
      ∧ SameElse s (s.take this o last) := by
  cases last with
  | none =>
    have hself : (s.take this o none).map this = { o with begin := .endItem this } :=
      Function.update_self ..
    exact ⟨⟨by rw [hself], by rw [hself], by rw [hself], by rw [hself], by rw [hself],
      fun h => absurd rfl h, Function.update_self ..,
      congrArg (fun o => some (Object.begin o)) hself⟩,
      fun _ _ => rfl, fun a ha => Function.update_of_ne ha ..,
      fun z hz => Function.update_of_ne hz .., ⟨rfl, rfl, rfl, rfl, rfl, rfl, rfl, rfl⟩⟩
  | some q =>
    have hself : (s.take this o (some q)).map this = o := Function.update_self ..
    exact ⟨⟨by rw [hself], by rw [hself], by rw [hself], by rw [hself], by rw [hself],
      fun _ => by rw [hself], Function.update_self .., Function.update_self ..⟩,
      fun a ha => Function.update_of_ne (fun heq => ha (congrArg some heq)) ..,
      fun a ha => Function.update_of_ne ha .., fun z hz => Function.update_of_ne hz ..,
      ⟨rfl, rfl, rfl, rfl, rfl, rfl, rfl, rfl⟩⟩

/-- The bucket table of another object -/
lemma Table.take {data : ℕ} {chain : ℕ → List Addr} (h : Table hash s y data items chain)
    (hcapacity : (s'.map x).capacity = (s.map y).capacity) (hsame : SameElse s s') :
    Table hash s' x data items chain := by
  refine ⟨?_, fun i hi => ?_, fun i a => ?_, h.nodup, fun a ha => ?_⟩
  · rw [hsame.cells, hcapacity, h.cells]
  · rw [hsame.pointer, hsame.cell]
    exact h.hung i (hsame.cells ▸ hi)
  · rw [hsame.key, hcapacity]
    exact h.mem i a
  · rw [hsame.key, hcapacity, hsame.cells]
    exact h.inside a ha

variable [BEq T]

/-- The items of another object -/
lemma Valid.take (h : Valid hash s y items free) (hb : (s.map y).blocks.Nodup)
    (ht : Takes s' x (s.map y) (s.prev (.endItem y))) (hsame : SameElse s s')
    (hnext : ∀ a ∈ items, some a ≠ s.prev (.endItem y) → s'.next a = s.next a)
    (hprev : ∀ a ∈ items ++ free, s'.prev a = s.prev a) : Valid hash s' x items free := by
  have hlast : s.prev (.endItem y) = endOf none items := h.listed.chain.prev_eq
  have hnd := (List.nodup_append.mp (h.stored.nodup hb)).1
  refine ⟨⟨?_, ht.size.trans h.listed.size⟩, ⟨?_, ht.blocks ▸ h.stored.slots⟩, ?_,
    h.unique.congr fun a _ => congrFun hsame.key a⟩
  · rw [hlast] at ht hnext
    refine h.listed.chain.relocate (nodup_optional hnd) ht.nextLast ht.prevEnd ?_
      fun a ha => hprev a (List.mem_append_left _ ha)
    intro z hz hne
    cases z with
    | none => exact congrArg some (ht.begin (Ne.symm hne))
    | some a => exact hnext a (mem_optional hz) hne
  · rw [ht.freeItem]
    exact h.stored.freeChain.congr fun a ha => hprev a (List.mem_append_right _ ha)
  · have hhashed := h.hashed
    unfold Hashed at hhashed ⊢
    rw [ht.data]
    cases hdata : (s.map y).data with
    | none => rwa [hdata] at hhashed
    | some data =>
      rw [hdata] at hhashed
      obtain ⟨chain, htable⟩ := hhashed
      exact ⟨chain, htable.take ht.capacity hsame⟩

lemma Valid.last_mem (h : Valid hash s x items free) {q : Addr}
    (hq : s.prev (.endItem x) = some q) : q ∈ items := by
  have hlast : s.prev (.endItem x) = endOf none items := h.listed.chain.prev_eq
  exact mem_optional (hq ▸ hlast ▸ endOf_mem none items)

/-- **Two objects exchange their items**, and the others are as they were. -/
theorem swap_spec (ho : s.Owned) (hthis : this < s.maps) (hother : other < s.maps)
    (hne : this ≠ other) {items' free' : List Addr} (h : Valid hash s this items free)
    (h' : Valid hash s other items' free') :
    (s.swap this other).Owned ∧ SameElse s (s.swap this other)
      ∧ Valid hash (s.swap this other) this items' free'
      ∧ Valid hash (s.swap this other) other items free
      ∧ ∀ z < s.maps, z ≠ this → z ≠ other → ∀ items free, Valid hash s z items free →
        Valid hash (s.swap this other) z items free := by
  obtain ⟨ht₁, hnext₁, hprev₁, hmap₁, hsame₁⟩ :=
    take_run s this (s.map other) (s.prev (.endItem other))
  obtain ⟨ht₂, hnext₂, hprev₂, hmap₂, hsame₂⟩ :=
    take_run (s.take this (s.map other) (s.prev (.endItem other))) other (s.map this)
      (s.prev (.endItem this))
  generalize hs₁ : s.take this (s.map other) (s.prev (.endItem other)) = s₁ at *
  have hswap : s.swap this other = s₁.take other (s.map this) (s.prev (.endItem this)) := by
    rw [swap, hs₁]
  rw [hswap]
  generalize s₁.take other (s.map this) (s.prev (.endItem this)) = s₂ at *
  have hends : Addr.endItem this ≠ .endItem other := fun heq => hne (Addr.endItem.inj heq)
  -- An item that an object owns is not the last one of another object.
  have hlast : ∀ {x y : ℕ} {k f : List Addr}, x < s.maps → y < s.maps → x ≠ y →
      Valid hash s y k f → ∀ a, (s.map x).Owns x a → some a ≠ s.prev (.endItem y) := by
    intro x y k f hx hy hxy hk a ha heq
    exact ho.not_owns hx hy hxy ha (hk.stored.owns (List.mem_append_left _ (hk.last_mem heq.symm)))
  have ht : Takes s₂ this (s.map other) (s.prev (.endItem other)) := by
    refine ht₁.congr (hmap₂ this hne) (hprev₂ _ hends) fun a ha => hnext₂ a ?_
    exact hlast hother hthis (Ne.symm hne) h a
      (h'.stored.owns (List.mem_append_left _ (h'.last_mem ha.symm)))
  have hsame := hsame₁.trans hsame₂
  have hprev : ∀ a, a ≠ .endItem this → a ≠ .endItem other → s₂.prev a = s.prev a :=
    fun a ha ha' => (hprev₂ a ha').trans (hprev₁ a ha)
  have hnext : ∀ a, some a ≠ s.prev (.endItem this) → some a ≠ s.prev (.endItem other) →
      s₂.next a = s.next a := fun a ha ha' => (hnext₂ a ha).trans (hnext₁ a ha')
  have hmap : ∀ z, z ≠ this → z ≠ other → s₂.map z = s.map z := fun z hz hz' =>
    (hmap₂ z hz').trans (hmap₁ z hz)
  have hswapLt : ∀ x < s.maps, Equiv.swap this other x < s.maps := by
    intro x hx
    rw [Equiv.swap_apply_def]
    split_ifs
    · exact hother
    · exact hthis
    · exact hx
  refine ⟨.of_owners ?_ ?_, hsame, ?_, ?_, ?_⟩
  · have hblocks : (fun x => (s₂.map x).blocks)
        = fun x => (s.map (Equiv.swap this other x)).blocks := by
      funext x
      by_cases hx : x = this
      · rw [hx, Equiv.swap_apply_left, ht.blocks]
      · by_cases hx' : x = other
        · rw [hx', Equiv.swap_apply_right, ht₂.blocks]
        · rw [Equiv.swap_apply_of_ne_of_ne hx hx', hmap x hx hx']
    rw [hblocks, hsame.maps, hsame.blocks]
    exact ho.owners.permute hswapLt (Equiv.injective _)
  · have htables : (fun x => (s₂.map x).data.toList)
        = fun x => (s.map (Equiv.swap this other x)).data.toList := by
      funext x
      by_cases hx : x = this
      · rw [hx, Equiv.swap_apply_left, ht.data]
      · by_cases hx' : x = other
        · rw [hx', Equiv.swap_apply_right, ht₂.data]
        · rw [Equiv.swap_apply_of_ne_of_ne hx hx', hmap x hx hx']
    rw [htables, hsame.maps, hsame.tables]
    exact ho.tableOwners.permute hswapLt (Equiv.injective _)
  · refine h'.take (ho.nodup other hother) ht hsame (fun a ha ha' => hnext a ?_ ha') fun a ha => ?_
    · exact hlast hother hthis (Ne.symm hne) h a (h'.stored.owns (List.mem_append_left _ ha))
    · exact hprev a (h'.stored.ne_endItem ha this) (h'.stored.ne_endItem ha other)
  · refine h.take (ho.nodup this hthis) ht₂ hsame (fun a ha ha' => hnext a ha' ?_) fun a ha => ?_
    · exact hlast hthis hother hne h' a (h.stored.owns (List.mem_append_left _ ha))
    · exact hprev a (h.stored.ne_endItem ha this) (h.stored.ne_endItem ha other)
  · intro z hz hzt hzo k f hk
    refine hk.congr (ho.nodup z hz) (hmap z hzt hzo) (fun a ha => ?_) fun data _ =>
      ⟨congrFun hsame.cells data, fun i => congrFun hsame.pointer _⟩
    refine ⟨congrFun hsame.key a, congrFun hsame.value a, congrFun hsame.cell a, hprev a ?_ ?_,
      hnext a (hlast hz hthis hzt h a ha) (hlast hz hother hzo h' a ha),
      congrFun hsame.pointer _⟩
    · rintro rfl
      exact hzt ha.symm
    · rintro rfl
      exact hzo ha.symm

/-- Nothing happens to an object that is swapped with itself. -/
lemma swap_self (h : Valid hash s this items free) : s.swap this this = s := by
  have hlast : s.nextOf this (s.prev (.endItem this)) = some (.endItem this) := by
    rw [show s.prev (.endItem this) = endOf none items from h.listed.chain.prev_eq]
    exact (chain_append.mp h.listed.chain).2.1
  have htake : s.take this (s.map this) (s.prev (.endItem this)) = s := by
    cases hprev : s.prev (.endItem this) with
    | none =>
      rw [hprev] at hlast
      have hbegin : { s.map this with begin := .endItem this } = s.map this := by
        rw [← Option.some_inj.mp hlast]
      rw [take, ← hprev]
      simp only [setMap, Function.update_eq_self]
      rw [hbegin, Function.update_eq_self]
    | some q =>
      rw [hprev] at hlast
      have hnext : s.next q = some (.endItem this) := hlast
      rw [take, ← hprev]
      simp only [setMap, Function.update_eq_self, ← hnext]
  rw [swap, htake, htake]

end Objects

end State

end Nstd.HashTable
