import Nstd.Container.HashTableInsert

/-!
# Removing from a hash container

* `Unhangs`, `Table.remove` — an item leaves its bucket.
* `Unlinks`, `Listed.remove` — it leaves the list, and becomes a free one.
* **`unlink_spec`** — both, which is what `remove` does.
* **`clear_spec`** — all items become free ones.
-/

namespace Nstd.HashTable

open Linked

variable {T V : Type}

namespace State

/-! ## Taking an item out of its bucket -/

section Unhang

variable {hash : T → ℕ} {s : State T V} {this data : ℕ} {items : List Addr} {chain : ℕ → List Addr}

/-- **What `unhang` writes**: the item below takes the place of `item`. -/
structure Unhangs (s : State T V) (item : Addr) (below : Option Addr) (cell : Addr → Cell)
    (pointer : Cell → Option Addr) : Prop where
  cellPointer : pointer (s.cell item) = below
  otherPointer : ∀ z, z ≠ s.cell item → pointer z = s.pointer z
  belowCell : ∀ b ∈ below, cell b = s.cell item
  otherCell : ∀ b, b ∉ below → cell b = s.cell b

/-- The cells of a chain -/
lemma Table.nodup_cells (ht : Table hash s this data items chain) (i j : ℕ) :
    (Cell.bucket data i :: (chain j).map Cell.nextCell).Nodup :=
  List.nodup_cons.mpr ⟨by simp, (ht.nodup j).map fun _ _ => Cell.nextCell.inj⟩

lemma unhang_run (ht : Table hash s this data items chain) {i : ℕ} (hi : i < s.cells data)
    {c₁ c₂ : List Addr} {item : Addr} (hchain : chain i = c₁ ++ item :: c₂) :
    ∃ cell pointer, s.unhang item = some { s with cell, pointer }
      ∧ Unhangs s item c₂.head? cell pointer := by
  have hung := ht.hung i hi
  have hcells := ht.nodup_cells i i
  rw [hchain] at hung hcells
  have hbelow : s.pointer (.nextCell item) = c₂.head? := hung.below_node.pointer_eq
  have hne : Cell.nextCell item ≠ s.cell item := hung.below_ne_cell hcells
  have hcell : s.cell item ∈ Cell.bucket data i :: (c₁ ++ item :: c₂).map Cell.nextCell :=
    hung.cell_mem (by simp)
  have hinside : s.Inside (s.cell item) := by
    rcases List.mem_cons.mp hcell with heq | hmem
    · rw [heq]; exact hi
    · obtain ⟨b, -, heq⟩ := List.mem_map.mp hmem
      rw [← heq]; exact trivial
  rw [unhang, write, if_pos hinside, hbelow]
  simp only [Option.bind_eq_bind, Option.bind_some, Function.update_of_ne hne, hbelow]
  cases hhead : c₂.head? with
  | none =>
    exact ⟨s.cell, _, rfl, Function.update_self .., fun z hz => Function.update_of_ne hz ..,
      fun b hb => absurd hb (Option.not_mem_none b), fun _ _ => rfl⟩
  | some n =>
    refine ⟨Function.update s.cell n (s.cell item), _, rfl, Function.update_self ..,
      fun z hz => Function.update_of_ne hz .., fun b hb => ?_, fun b hb => ?_⟩
    · rw [← Option.some_inj.mp hb, Function.update_self]
    · refine Function.update_of_ne ?_ _ _
      rintro rfl
      exact hb rfl

/-- **The item is not in the table any more.** -/
lemma Table.remove (ht : Table hash s this data items chain) {i : ℕ} (hi : i < s.cells data)
    {c₁ c₂ : List Addr} {item : Addr} (hchain : chain i = c₁ ++ item :: c₂) {items' : List Addr}
    (hitems : ∀ a, a ∈ items' ↔ a ∈ items ∧ a ≠ item) {cell : Addr → Cell}
    {pointer : Cell → Option Addr} (h : Unhangs s item c₂.head? cell pointer) :
    Table hash { s with cell, pointer } this data items' (Function.update chain i (c₁ ++ c₂)) := by
  have hung := ht.hung i hi
  have hnd := ht.nodup i
  have hcells := ht.nodup_cells i i
  have hmem := fun a => ht.mem i a
  rw [hchain] at hung hnd hcells
  have hcell : s.cell item ∈ Cell.bucket data i :: (c₁ ++ item :: c₂).map Cell.nextCell :=
    hung.cell_mem (by simp)
  rw [← hchain] at hcell
  have hne : ∀ a, a ∈ c₁ ++ c₂ ↔ a ∈ chain i ∧ a ≠ item := by
    rw [hchain]
    exact mem_middle_iff hnd
  -- An item is in one chain only.
  have hchains : ∀ {j b}, b ∈ chain j → b ∈ chain i → j = i := fun hj hi' => by
    rw [← ((ht.mem _ _).mp hj).2, ((ht.mem _ _).mp hi').2]
  refine ⟨ht.cells, fun j hj => ?_, fun j a => ?_, fun j => ?_, fun a ha => ?_⟩
  · by_cases hji : j = i
    · subst hji
      rw [Function.update_self]
      exact hung.remove hnd hcells h.cellPointer h.belowCell h.otherPointer h.otherCell
    · rw [Function.update_of_ne hji]
      refine (ht.hung j hj).congr (fun z hz => h.otherPointer z ?_) fun b hb => h.otherCell b ?_
      · rintro rfl
        rcases List.mem_cons.mp hz with heq | hz
        · rcases List.mem_cons.mp hcell with heq' | hz'
          · exact hji (Cell.bucket.inj (heq.symm.trans heq')).2
          · obtain ⟨b, -, hb⟩ := List.mem_map.mp hz'
            exact Cell.noConfusion (hb.trans heq)
        · obtain ⟨b, hb, heq⟩ := List.mem_map.mp hz
          rcases List.mem_cons.mp hcell with heq' | hz'
          · exact Cell.noConfusion (heq.trans heq')
          · obtain ⟨b', hb', heq'⟩ := List.mem_map.mp hz'
            obtain rfl := Cell.nextCell.inj (heq.trans heq'.symm)
            exact hji (hchains hb hb')
      · intro hhead
        refine hji (hchains hb ?_)
        rw [hchain]
        exact List.mem_append_right _ (List.mem_cons_of_mem _ (List.mem_of_mem_head? hhead))
  · by_cases hji : j = i
    · subst hji
      rw [Function.update_self, hne, ht.mem, hitems]
      exact and_right_comm
    · rw [Function.update_of_ne hji, ht.mem, hitems]
      refine ⟨fun ha => ⟨⟨ha.1, ?_⟩, ha.2⟩, fun ha => ⟨ha.1.1, ha.2⟩⟩
      rintro rfl
      refine hji (hchains ((ht.mem j a).mpr ha) ?_)
      rw [hchain]
      simp
  · by_cases hji : j = i
    · subst hji
      rw [Function.update_self]
      exact (List.nodup_cons.mp (List.perm_middle.nodup_iff.mp hnd)).2
    · rw [Function.update_of_ne hji]
      exact ht.nodup j
  · exact ht.inside a ((hitems a).mp ha).1

end Unhang

/-! ## Taking an item out of the list -/

section Unlink

variable {s : State T V} {this : ℕ}

/-- **What becomes of the list**: `next` comes after `last`, and the item is the first free one. -/
structure Unlinks (s s' : State T V) (this : ℕ) (item next : Addr) (last : Option Addr) : Prop where
  nextLast : s'.nextOf this last = some next
  nextOther : ∀ z, z ≠ last → s'.nextOf this z = s.nextOf this z
  prevNext : s'.prev next = last
  prevItem : s'.prev item = (s.map this).freeItem
  prevOther : ∀ b, b ≠ item → b ≠ next → s'.prev b = s.prev b
  map : ∃ begin, s'.map this
    = { s.map this with begin, size := (s.map this).size - 1, freeItem := some item }
  other : ∀ y, y ≠ this → s'.map y = s.map y
  rest : s'.key = s.key ∧ s'.value = s.value ∧ s'.cell = s.cell ∧ s'.pointer = s.pointer
    ∧ s'.cells = s.cells ∧ s'.tables = s.tables ∧ s'.blocks = s.blocks ∧ s'.maps = s.maps

/-- The rest of `unlink`, after `unhang` -/
def unlinkList (s : State T V) (this : ℕ) (item : Addr) : Option (State T V) := do
  let s ← s.unchain this item
  let s := s.setMap this fun o => { o with size := o.size - 1 }
  some (s.release this item)

lemma unlinkList_first {item next : Addr} (hnext : s.next item = some next)
    (hprev : s.prev item = none) : s.unlinkList this item = some { s with
      prev := Function.update (Function.update s.prev next none) item (s.map this).freeItem
      map := Function.update s.map this { s.map this with
        begin := next, size := (s.map this).size - 1, freeItem := some item } } := by
  rw [unlinkList, unchain, hnext, hprev]
  simp only [Option.bind_eq_bind, Option.bind_some, release, setMap, Function.update_self,
    Function.update_idem]

lemma unlinkList_later {item next q : Addr} (hnext : s.next item = some next)
    (hprev : s.prev item = some q) : s.unlinkList this item = some { s with
      next := Function.update s.next q (some next)
      prev := Function.update (Function.update s.prev next (some q)) item (s.map this).freeItem
      map := Function.update s.map this { s.map this with
        size := (s.map this).size - 1, freeItem := some item } } := by
  rw [unlinkList, unchain, hnext, hprev]
  simp only [Option.bind_eq_bind, Option.bind_some, release, setMap, Function.update_self,
    Function.update_idem]

lemma unlinkList_run {item next : Addr} {last : Option Addr} (hnext : s.next item = some next)
    (hprev : s.prev item = last) (hne : next ≠ item) :
    ∃ s', s.unlinkList this item = some s' ∧ Unlinks s s' this item next last := by
  have hprevNext : ∀ p, Function.update (Function.update s.prev next last) item p next = last := by
    intro p
    rw [Function.update_of_ne hne, Function.update_self]
  have hprevOther : ∀ p b, b ≠ item → b ≠ next →
      Function.update (Function.update s.prev next last) item p b = s.prev b := by
    intro p b hb hb'
    rw [Function.update_of_ne hb, Function.update_of_ne hb']
  cases last with
  | none =>
    refine ⟨_, unlinkList_first hnext hprev, ?_, fun z hz => ?_, hprevNext _,
      Function.update_self .., hprevOther _, ⟨next, Function.update_self ..⟩,
      fun y hy => Function.update_of_ne hy .., rfl, rfl, rfl, rfl, rfl, rfl, rfl, rfl⟩
    · simp only [nextOf, Function.update_self]
    · cases z with
      | none => exact absurd rfl hz
      | some b => rfl
  | some q =>
    refine ⟨_, unlinkList_later hnext hprev, Function.update_self .., fun z hz => ?_, hprevNext _,
      Function.update_self .., hprevOther _, ⟨_, Function.update_self ..⟩,
      fun y hy => Function.update_of_ne hy .., rfl, rfl, rfl, rfl, rfl, rfl, rfl, rfl⟩
    cases z with
    | none => simp only [nextOf, Function.update_self]
    | some b => exact Function.update_of_ne (fun heq => hz (congrArg some heq)) ..

/-- What comes after an item, and before it -/
lemma Listed.around {l₁ l₂ : List Addr} {item next : Addr} {rest : List Addr}
    (h : s.Listed this (l₁ ++ item :: l₂)) (hnext : l₂ ++ [.endItem this] = next :: rest) :
    s.next item = some next ∧ s.prev item = endOf none l₁ := by
  have hchain := h.chain
  rw [List.append_assoc, List.cons_append, hnext] at hchain
  exact ⟨hchain.next_eq, hchain.prev_eq⟩

/-- **The item is not in the list any more.** -/
lemma Listed.remove {s' : State T V} {l₁ l₂ : List Addr} {item next : Addr} {rest : List Addr}
    (h : s.Listed this (l₁ ++ item :: l₂)) (hnext : l₂ ++ [.endItem this] = next :: rest)
    (hnd : (l₁ ++ item :: l₂ ++ [Addr.endItem this]).Nodup)
    (hunlinks : Unlinks s s' this item next (endOf none l₁)) : s'.Listed this (l₁ ++ l₂) := by
  have hold : l₁ ++ item :: l₂ ++ [Addr.endItem this] = l₁ ++ item :: next :: rest := by
    rw [List.append_assoc, List.cons_append, hnext]
  have hnew : l₁ ++ l₂ ++ [Addr.endItem this] = l₁ ++ next :: rest := by
    rw [List.append_assoc, hnext]
  have hchain := h.chain
  rw [hold] at hchain hnd
  refine ⟨?_, ?_⟩
  · rw [hnew]
    exact hchain.remove (List.nodup_cons.mpr ⟨by simp, hnd.map fun _ _ => Option.some_inj.mp⟩)
      hunlinks.nextLast hunlinks.prevNext (fun z hz _ => hunlinks.nextOther z hz)
      hunlinks.prevOther
  · obtain ⟨_, hmap⟩ := hunlinks.map
    rw [hmap, h.size, List.length_append, List.length_append, List.length_cons]
    rfl

end Unlink

/-! ## Removing -/

section Remove

variable [BEq T] {hash : T → ℕ} {s : State T V} {this : ℕ}

/-- What a removal comes to -/
structure Removed (hash : T → ℕ) (s s' : State T V) (this : ℕ) (items : List Addr) : Prop where
  only : Only s s' this
  owned : s'.Owned
  valid : ∃ free, Valid hash s' this items free
  keys : s'.key = s.key
  values : s'.value = s.value

omit [BEq T] in
/-- Where there is an item there is a table. -/
lemma Hashed.table {items : List Addr} (h : Hashed hash s this items) {a : Addr} (ha : a ∈ items) :
    ∃ data, (s.map this).data = some data ∧ ∃ chain, Table hash s this data items chain := by
  unfold Hashed at h
  cases hdata : (s.map this).data with
  | none =>
    rw [hdata] at h
    rw [h] at ha
    exact absurd ha List.not_mem_nil
  | some data =>
    rw [hdata] at h
    exact ⟨data, rfl, h⟩

/-- **`remove`** without the iterator that it returns -/
theorem unlink_spec {l₁ l₂ free : List Addr} {item : Addr}
    (h : Valid hash s this (l₁ ++ item :: l₂) free) (ho : s.Owned) (hthis : this < s.maps) :
    ∃ s', s.unlink this item = some s' ∧ Removed hash s s' this (l₁ ++ l₂)
      ∧ s'.next item = (l₂ ++ [Addr.endItem this]).head? := by
  have hnodup := h.stored.nodup (ho.nodup this hthis)
  have hnd := h.stored.nodup_end (ho.nodup this hthis)
  have hitems := mem_middle_iff (List.nodup_append.mp hnd).1
  have hitem : item ∈ l₁ ++ item :: l₂ := by simp
  obtain ⟨next, rest, hrest⟩ : ∃ next rest, l₂ ++ [Addr.endItem this] = next :: rest :=
    List.exists_cons_of_ne_nil (by simp)
  have hnext : next ∈ l₁ ++ l₂ ∨ next = .endItem this := by
    have hmem : next ∈ l₂ ++ [Addr.endItem this] := hrest ▸ List.mem_cons_self
    rcases List.mem_append.mp hmem with hmem | hmem
    · exact Or.inl (List.mem_append_right _ hmem)
    · exact Or.inr (List.mem_singleton.mp hmem)
  have hnextNe : next ≠ item := by
    rcases hnext with hnext | rfl
    · exact ((hitems next).mp hnext).2
    · exact (h.stored.ne_endItem (List.mem_append_left _ hitem) this).symm
  -- The item leaves its bucket.
  obtain ⟨data, hdata, chain, htable⟩ := h.hashed.table hitem
  have hi := htable.inside item hitem
  obtain ⟨c₁, c₂, hchain⟩ := List.append_of_mem ((htable.mem _ item).mpr ⟨hitem, rfl⟩)
  obtain ⟨cell, pointer, hunhang, hunhangs⟩ := unhang_run htable hi hchain
  have htable' := htable.remove hi hchain hitems hunhangs
  -- It leaves the list.
  obtain ⟨hnextItem, hprevItem⟩ := h.listed.around hrest
  obtain ⟨s', hrun, hunlinks⟩ : ∃ s', State.unlinkList { s with cell, pointer } this item = some s'
      ∧ Unlinks { s with cell, pointer } s' this item next (endOf none l₁) :=
    unlinkList_run hnextItem hprevItem hnextNe
  have hlisted : State.Listed { s with cell, pointer } this (l₁ ++ item :: l₂) :=
    ⟨h.listed.chain, h.listed.size⟩
  obtain ⟨hkey, hvalue, hcell, hpointer, hcells, htables, hblocks, hmaps⟩ := hunlinks.rest
  obtain ⟨begin, hmap⟩ := hunlinks.map
  have hmapThis : s'.map this = { s.map this with
    begin, size := (s.map this).size - 1, freeItem := some item } := hmap
  have hblocksThis : (s'.map this).blocks = (s.map this).blocks := by rw [hmapThis]
  have hdataThis : (s'.map this).data = some data := by rw [hmapThis, ← hdata]
  refine ⟨s', ?_, ⟨?_, ?_, ⟨item :: free, ?_, ?_, ?_, ?_⟩, hkey, hvalue⟩, ?_⟩
  · rw [unlink, hunhang]
    exact hrun
  · refine ⟨hmaps, hunlinks.other, by rw [hmapThis], Nat.le_of_eq htables.symm,
      fun b hb => hblocksThis ▸ hb, fun d hd => by rw [hdataThis, ← hdata]; exact hd, fun a ha => ?_,
      fun d _ hd => ⟨congrFun hcells d, fun i => ?_⟩⟩
    · -- What does not belong to the object is not written to.
      have haMem : a ∉ l₁ ++ item :: l₂ := fun hmem =>
        ha (owns_mono (fun b hb => hblocksThis ▸ hb) (h.stored.owns (List.mem_append_left _ hmem)))
      have haItem : a ≠ item := by
        rintro rfl
        exact haMem hitem
      have haNext : a ≠ next := by
        rintro rfl
        rcases hnext with hmem | rfl
        · exact haMem ((hitems a).mp hmem).1
        · exact ha rfl
      refine ⟨congrFun hkey a, congrFun hvalue a, ?_, hunlinks.prevOther a haItem haNext, ?_, ?_⟩
      · rw [hcell]
        refine hunhangs.otherCell a fun hhead => ?_
        have hmem : a ∈ chain (hash (s.key item) % (s.map this).capacity) := by
          rw [hchain]
          exact List.mem_append_right _ (List.mem_cons_of_mem _ (List.mem_of_mem_head? hhead))
        exact haMem ((htable.mem _ a).mp hmem).1
      · exact hunlinks.nextOther (some a) (ne_endOf fun hmem => haMem (List.mem_append_left _ hmem))
      · rw [hpointer]
        refine hunhangs.otherPointer _ fun heq => ?_
        rcases htable.cell_cases hitem with ⟨i, hcell, -⟩ | ⟨b, hb, hcell⟩
        · exact Cell.noConfusion (heq.trans hcell)
        · exact haMem (Cell.nextCell.inj (heq.trans hcell) ▸ hb)
    · rw [hpointer]
      refine hunhangs.otherPointer _ fun heq => ?_
      rcases htable.cell_cases hitem with ⟨i, hcell, -⟩ | ⟨b, hb, hcell⟩
      · exact hd (hdataThis.trans (congrArg some (Cell.bucket.inj (heq.trans hcell)).1.symm))
      · exact Cell.noConfusion (heq.trans hcell)
  · refine ho.grow hmaps hunlinks.other (Nat.le_of_eq hblocks.symm) ?_
      (fun b hb => Or.inl (hblocksThis ▸ hb)) (Nat.le_of_eq htables.symm) fun d hd => Or.inl ?_
    · rw [hblocksThis]; exact ho.nodup this hthis
    · rw [← hd, hdataThis, hdata]
  · exact hlisted.remove hrest hnd hunlinks
  · refine ⟨?_, ?_⟩
    · rw [hmapThis]
      refine ⟨rfl, ?_⟩
      rw [hunlinks.prevItem]
      refine h.stored.freeChain.congr fun a ha => hunlinks.prevOther a ?_ ?_
      · rintro rfl
        exact (List.nodup_append.mp hnodup).2.2 a hitem a ha rfl
      · rintro rfl
        rcases hnext with hmem | rfl
        · exact (List.nodup_append.mp hnodup).2.2 a ((hitems a).mp hmem).1 a ha rfl
        · exact h.stored.ne_endItem (List.mem_append_right _ ha) this rfl
    · rw [hblocksThis]
      have hperm : (l₁ ++ l₂ ++ item :: free).Perm (l₁ ++ item :: l₂ ++ free) :=
        List.perm_middle.trans (List.perm_middle.symm.append_right free)
      exact hperm.trans h.stored.slots
  · unfold Hashed
    rw [hdataThis]
    exact ⟨_, htable'.congr (by rw [hmapThis]) ⟨congrFun hcells data, fun i => congrFun hpointer _⟩
      fun a _ => ⟨congrFun hkey a, congrFun hcell a, congrFun hpointer _⟩⟩
  · refine Unique.congr (s := s) (List.Pairwise.sublist ?_ h.unique) fun a _ => congrFun hkey a
    exact (List.Sublist.refl l₁).append (List.sublist_cons_self item l₂)
  · have hne : some item ≠ endOf none l₁ := ne_endOf fun hmem =>
      ((hitems item).mp (List.mem_append_left _ hmem)).2 rfl
    exact (hunlinks.nextOther (some item) hne).trans (hnextItem.trans (by rw [hrest]; rfl))

omit [BEq T] in
/-- **The loop of `clear`** makes the items free ones, and what points to them null. -/
lemma clearFrom_spec {rest : List Addr} : ∀ {s : State T V} {free tail : List Addr} {i : Addr}
    {fuel : ℕ}, rest.length < fuel → rest ++ [.endItem this] = i :: tail →
    ((i :: tail).IsChain fun a b => s.next a = some b) → rest.Nodup → Addr.endItem this ∉ rest →
    Stack s.prev (s.map this).freeItem free → (∀ a ∈ rest, a ∉ free) →
    (∀ a ∈ rest, s.Inside (s.cell a)) →
    ∃ prev pointer freeItem, clearFrom this fuel s i = some { s with
        prev, pointer, map := Function.update s.map this { s.map this with freeItem } }
      ∧ Stack prev freeItem (rest.reverse ++ free) ∧ (∀ a, a ∉ rest → prev a = s.prev a)
      ∧ (∀ a ∈ rest, pointer (s.cell a) = none)
      ∧ ∀ z, z ∉ rest.map s.cell → pointer z = s.pointer z := by
  induction rest with
  | nil =>
    intro s free tail i fuel hfuel hrest _ _ _ hfree _ _
    obtain ⟨rfl, -⟩ := List.cons.inj hrest
    cases fuel with
    | zero => exact absurd hfuel (Nat.lt_irrefl 0)
    | succ fuel =>
      refine ⟨s.prev, s.pointer, (s.map this).freeItem, ?_, hfree, fun _ _ => rfl,
        fun a ha => absurd ha List.not_mem_nil, fun _ _ => rfl⟩
      rw [clearFrom, if_pos rfl, Function.update_eq_self]
  | cons a rest ih =>
    intro s free tail i fuel hfuel hrest hnext hnd hend hfree hdisjoint hinside
    obtain ⟨rfl, rfl⟩ := List.cons.inj hrest
    obtain ⟨ha, hnd'⟩ := List.nodup_cons.mp hnd
    have hane : a ≠ .endItem this := fun heq => hend (heq ▸ List.mem_cons_self)
    obtain ⟨next, tail, htail⟩ : ∃ next tail, rest ++ [Addr.endItem this] = next :: tail :=
      List.exists_cons_of_ne_nil (by simp)
    cases fuel with
    | zero => exact absurd hfuel (Nat.not_lt_zero _)
    | succ fuel =>
      change (a :: (rest ++ [Addr.endItem this])).IsChain _ at hnext
      rw [htail] at hnext
      obtain ⟨hnextItem, hnext⟩ := List.isChain_cons_cons.mp hnext
      have hstack : Stack (Function.update s.prev a (s.map this).freeItem) (some a)
          (a :: free) := by
        refine ⟨rfl, ?_⟩
        rw [Function.update_self]
        refine hfree.congr fun b hb => Function.update_of_ne ?_ ..
        rintro rfl
        exact hdisjoint b List.mem_cons_self hb
      have hdisjoint' : ∀ b ∈ rest, b ∉ a :: free := by
        intro b hb hmem
        rcases List.mem_cons.mp hmem with rfl | hmem
        · exact ha hb
        · exact hdisjoint b (List.mem_cons_of_mem a hb) hmem
      have hfreeItem : (Function.update s.map this { s.map this with freeItem := some a }
          this).freeItem = some a := by rw [Function.update_self]
      obtain ⟨prev, pointer, freeItem, hrun, hstack', hprev, hnull, hpointer⟩ :=
        @ih { s with
            pointer := Function.update s.pointer (s.cell a) none
            prev := Function.update s.prev a (s.map this).freeItem
            map := Function.update s.map this { s.map this with freeItem := some a } }
          (a :: free) tail next fuel (Nat.lt_of_succ_lt_succ hfuel) htail hnext hnd'
          (fun hmem => hend (List.mem_cons_of_mem a hmem)) (hfreeItem.symm ▸ hstack) hdisjoint'
          fun b hb => hinside b (List.mem_cons_of_mem a hb)
      refine ⟨prev, pointer, freeItem, ?_, ?_, fun b hb => ?_, fun b hb => ?_, fun z hz => ?_⟩
      · rw [clearFrom, if_neg hane, write, if_pos (hinside a List.mem_cons_self)]
        simp only [Function.update_idem, Function.update_self] at hrun
        simp only [Option.bind_eq_bind, Option.bind_some, release, setMap, hnextItem]
        exact hrun
      · rw [List.reverse_cons, List.append_assoc, List.singleton_append]
        exact hstack'
      · obtain ⟨hne, hb⟩ := not_or.mp (List.mem_cons.not.mp hb)
        exact (hprev b hb).trans (Function.update_of_ne hne ..)
      · by_cases hmem : s.cell b ∈ rest.map s.cell
        · obtain ⟨b', hb', heq⟩ := List.mem_map.mp hmem
          rw [← heq]
          exact hnull b' hb'
        · obtain rfl : b = a := by
            rcases List.mem_cons.mp hb with heq | hb
            · exact heq
            · exact absurd (List.mem_map_of_mem hb) hmem
          exact (hpointer _ hmem).trans (Function.update_self ..)
      · rw [List.map_cons, List.mem_cons, not_or] at hz
        exact (hpointer z hz.2).trans (Function.update_of_ne hz.1 ..)

omit [BEq T] in
/-- The table is empty after `clear`. -/
lemma clear_hashed {s' : State T V} {items : List Addr} (h : Hashed hash s this items)
    (hcapacity : (s'.map this).capacity = (s.map this).capacity)
    (hdata : (s'.map this).data = (s.map this).data) (hcells : s'.cells = s.cells)
    (hnull : ∀ a ∈ items, s'.pointer (s.cell a) = none)
    (hother : ∀ z, z ∉ items.map s.cell → s'.pointer z = s.pointer z) : Hashed hash s' this [] := by
  unfold Hashed at h ⊢
  rw [hdata]
  cases hsome : (s.map this).data with
  | none => rfl
  | some data =>
    rw [hsome] at h
    obtain ⟨chain, ht⟩ := h
    refine ⟨fun _ => [], ?_, fun i hi => ?_, fun i a => by simp, fun _ => List.nodup_nil,
      fun a ha => absurd ha List.not_mem_nil⟩
    · rw [hcells, hcapacity, ht.cells]
    · rw [hcells] at hi
      change s'.pointer (.bucket data i) = none
      by_cases hmem : Cell.bucket data i ∈ items.map s.cell
      · obtain ⟨a, ha, heq⟩ := List.mem_map.mp hmem
        rw [← heq]
        exact hnull a ha
      · rw [hother _ hmem, (ht.hung i hi).pointer_eq]
        cases hchain : chain i with
        | nil => rfl
        | cons a l =>
          have hung := ht.hung i hi
          rw [hchain] at hung
          refine absurd (List.mem_map.mpr ⟨a, ?_, hung.2.1⟩) hmem
          exact ((ht.mem i a).mp (hchain ▸ List.mem_cons_self)).1

/-- **`clear`** -/
theorem clear_spec {items free : List Addr} (h : Valid hash s this items free) (ho : s.Owned)
    (hthis : this < s.maps) : ∃ s', s.clear this = some s' ∧ Removed hash s s' this [] := by
  have hnodup := h.stored.nodup (ho.nodup this hthis)
  have hend : Addr.endItem this ∉ items := fun hmem =>
    h.stored.ne_endItem (List.mem_append_left _ hmem) this rfl
  obtain ⟨i, tail, htail⟩ : ∃ i tail, items ++ [Addr.endItem this] = i :: tail :=
    List.exists_cons_of_ne_nil (by simp)
  have hchain := h.listed.chain
  rw [htail] at hchain
  have hinside : ∀ a ∈ items, s.Inside (s.cell a) := by
    intro a ha
    obtain ⟨data, -, chain, ht⟩ := h.hashed.table ha
    rcases ht.cell_cases ha with ⟨i, hcell, hi⟩ | ⟨b, -, hcell⟩
    · rw [hcell]; exact hi
    · rw [hcell]; exact trivial
  have hbegin : (s.map this).begin = i := Option.some_inj.mp hchain.1
  obtain ⟨prev, pointer, freeItem, hrun, hstack, hprev, hnull, hpointer⟩ :=
    clearFrom_spec (h.listed.size ▸ Nat.lt_succ_self _ : items.length < (s.map this).size + 1) htail
      hchain.isChain (List.nodup_append.mp hnodup).1 hend h.stored.freeChain
      (fun a ha hmem => (List.nodup_append.mp hnodup).2.2 a ha a hmem rfl) hinside
  have hclear : s.clear this = some { s with
      pointer
      prev := Function.update prev (.endItem this) none
      map := Function.update s.map this
        { s.map this with freeItem, begin := .endItem this, size := 0 } } := by
    rw [clear, hbegin, hrun]
    simp only [Option.bind_eq_bind, Option.bind_some, setMap, Function.update_idem,
      Function.update_self]
  generalize hs' : { s with
      pointer
      prev := Function.update prev (.endItem this) none
      map := Function.update s.map this
        { s.map this with freeItem, begin := .endItem this, size := 0 } } = s' at hclear
  have hmapThis : s'.map this = { s.map this with freeItem, begin := .endItem this, size := 0 } := by
    rw [← hs']
    exact Function.update_self ..
  have hmapOther : ∀ y, y ≠ this → s'.map y = s.map y := fun y hy => by
    rw [← hs']
    exact Function.update_of_ne hy ..
  have hblocksThis : (s'.map this).blocks = (s.map this).blocks := by rw [hmapThis]
  have hdataThis : (s'.map this).data = (s.map this).data := by rw [hmapThis]
  have hprev' : ∀ a, a ∉ items → a ≠ .endItem this → s'.prev a = s.prev a := fun a ha hne => by
    rw [← hs']
    exact (Function.update_of_ne hne ..).trans (hprev a ha)
  have hpointer' : s'.pointer = pointer := by rw [← hs']
  refine ⟨s', hclear, ⟨?_, ?_, ⟨items.reverse ++ free, ⟨⟨?_, ?_, trivial⟩, ?_⟩, ⟨?_, ?_⟩, ?_,
    List.Pairwise.nil⟩, by rw [← hs'], by rw [← hs']⟩⟩
  · refine ⟨by rw [← hs'], hmapOther, by rw [hmapThis], by rw [← hs'], fun b hb => hblocksThis ▸ hb,
      fun d hd => hdataThis.trans hd, fun a ha => ?_, fun d _ hd => ⟨by rw [← hs'], fun i => ?_⟩⟩
    · have haMem : a ∉ items := fun hmem =>
        ha (owns_mono (fun b hb => hblocksThis ▸ hb) (h.stored.owns (List.mem_append_left _ hmem)))
      refine ⟨by rw [← hs'], by rw [← hs'], by rw [← hs'], hprev' a haMem ?_, by rw [← hs'], ?_⟩
      · rintro rfl
        exact ha rfl
      · rw [hpointer']
        refine hpointer _ fun hmem => ?_
        obtain ⟨b, hb, heq⟩ := List.mem_map.mp hmem
        obtain ⟨data, -, chain, ht⟩ := h.hashed.table hb
        rcases ht.cell_cases hb with ⟨i, hcell, -⟩ | ⟨b', hb', hcell⟩
        · exact Cell.noConfusion (heq.symm.trans hcell)
        · exact haMem (Cell.nextCell.inj (heq.symm.trans hcell) ▸ hb')
    · rw [hpointer']
      refine hpointer _ fun hmem => ?_
      obtain ⟨b, hb, heq⟩ := List.mem_map.mp hmem
      obtain ⟨data, hdata, chain, ht⟩ := h.hashed.table hb
      rcases ht.cell_cases hb with ⟨i, hcell, -⟩ | ⟨b', -, hcell⟩
      · refine hd (hdataThis.trans (hdata.trans (congrArg some ?_)))
        exact (Cell.bucket.inj (heq.symm.trans hcell)).1.symm
      · exact Cell.noConfusion (heq.symm.trans hcell)
  · refine ho.grow (by rw [← hs']) hmapOther (by rw [← hs']) ?_
      (fun b hb => Or.inl (hblocksThis ▸ hb)) (by rw [← hs']) fun d hd => Or.inl (hdataThis ▸ hd)
    rw [hblocksThis]
    exact ho.nodup this hthis
  · exact congrArg (fun o => some o.begin) hmapThis
  · rw [← hs']; exact Function.update_self ..
  · rw [hmapThis]; rfl
  · rw [hmapThis]
    refine hstack.congr fun a ha => ?_
    rw [← hs']
    refine Function.update_of_ne ?_ ..
    rintro rfl
    rcases List.mem_append.mp ha with hmem | hmem
    · exact hend (List.mem_reverse.mp hmem)
    · exact h.stored.ne_endItem (List.mem_append_right _ hmem) this rfl
  · rw [hblocksThis]
    exact ((List.reverse_perm items).append_right free).trans h.stored.slots
  · refine clear_hashed h.hashed (by rw [hmapThis]) hdataThis (by rw [← hs']) ?_ ?_
    · rw [hpointer']; exact hnull
    · rw [hpointer']; exact hpointer

end Remove

end State

end Nstd.HashTable
