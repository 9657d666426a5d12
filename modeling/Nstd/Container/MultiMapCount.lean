import Nstd.Container.MultiMapRuns

/-!
# Counting in a `MultiMap`

`count` looks for any item with the key and then counts forward.  Two things decide what comes out:
which of the equal items the search meets first, and that the sentinel behind the last item has a
key too, the default one.

* `Sentinel` — the sentinel's fields, which no operation changes (`exec_sentinel`).
* `equalsLeft` — the equal items to the left of the topmost one.
* `count_spec` — what `count` returns, in terms of the two.
* **`count_correct_iff`** — when that is the number of entries with the key.
-/

namespace Nstd

open BalancedTree
open BalancedTree.AvlTree
open Linked

variable {T V : Type}

namespace MultiMap

open ItemTree

variable [LinearOrder T]

/-- The loop of `count` -/
def countFrom (m : ItemTree T V) (key : T) : ℕ → Ptr → ℕ → Option ℕ
  | _, none, count => some count
  | 0, some _, _ => none
  | fuel + 1, some item, count =>
    if (m.mem item).key = key then countFrom m key fuel (m.mem item).next (count + 1)
    else some count

/-- `count(key)` -/
def count (m : ItemTree T V) (key : T) : Option ℕ := do
  let it ← m.find key
  if it = endItem then some 0
  else countFrom m key (m.size + 1) (m.mem it).next 1

/-! ## Links only -/

omit [LinearOrder T] in
lemma onlyLinks_rot {d : Side} {m m' : ItemTree T V} {cell : Cell} (h : m.rot d cell = some m') :
    OnlyLinks m m' := by
  rw [ItemTree.rot] at h
  obtain ⟨oldTop, -, h⟩ := Option.bind_eq_some_iff.mp h
  obtain ⟨result, -, h⟩ := Option.bind_eq_some_iff.mp h
  obtain rfl := Option.some.inj h
  exact ((OnlyLinks.relink d m cell oldTop result).trans (onlyLinks_update ..)).trans
    (onlyLinks_update ..)

omit [LinearOrder T] in
lemma onlyLinks_shift {d : Side} {m m' : ItemTree T V} {cell : Cell}
    (h : m.shift d cell = some m') : OnlyLinks m m' := by
  rw [ItemTree.shift] at h
  obtain ⟨oldTop, -, h⟩ := Option.bind_eq_some_iff.mp h
  obtain ⟨child, -, h⟩ := Option.bind_eq_some_iff.mp h
  dsimp only at h
  split_ifs at h
  · obtain ⟨m₁, h₁, h⟩ := Option.bind_eq_some_iff.mp h
    exact (onlyLinks_rot h₁).trans (onlyLinks_rot h)
  · exact onlyLinks_rot h

omit [LinearOrder T] in
lemma onlyLinks_rebal {m m' : ItemTree T V} {item top : ℕ} (h : m.rebal item = some (m', top)) :
    OnlyLinks m m' := by
  have hshift : ∀ {d : Side} {m' : ItemTree T V}, ((m.shift d (m.cellOf item)).bind fun m₁ =>
      (m₁.read (m.cellOf item)).bind fun top => some (m₁, top)) = some (m', top) →
      OnlyLinks m m' := by
    intro d m' h
    obtain ⟨m₁, h₁, h⟩ := Option.bind_eq_some_iff.mp h
    obtain ⟨b, -, h⟩ := Option.bind_eq_some_iff.mp h
    obtain ⟨rfl, -⟩ := Prod.mk.inj (Option.some.inj h)
    exact onlyLinks_shift h₁
  rw [ItemTree.rebal] at h
  split_ifs at h
  · exact hshift h
  · exact hshift h
  · obtain ⟨rfl, -⟩ := Prod.mk.inj (Option.some.inj h)
    exact .refl _

omit [LinearOrder T] in
/-- The way up changes links only. -/
lemma onlyLinks_rebalParentUpwards : ∀ {fuel : ℕ} {m m' : ItemTree T V} {p : Ptr},
    m.rebalParentUpwards fuel p = some m' → OnlyLinks m m'
  | fuel, m, m', none, h => by
    have h' : some m = some m' := by cases fuel <;> exact h
    obtain rfl := Option.some.inj h'
    exact .refl _
  | 0, _, _, some _, h => by cases h
  | fuel + 1, m, m', some parent, h => by
    rw [ItemTree.rebalParentUpwards] at h
    obtain ⟨⟨m₁, top⟩, h₁, h⟩ := Option.bind_eq_some_iff.mp h
    refine (onlyLinks_update m parent).trans ((onlyLinks_rebal h₁).trans ?_)
    simp only at h
    split_ifs at h
    · obtain rfl := Option.some.inj h
      exact .refl _
    · exact onlyLinks_rebalParentUpwards h

/-! ## The sentinel -/

/-- The sentinel has the default key and no item behind it, and no item and no free slot points back
    to it. -/
structure Sentinel [Inhabited T] (m : ItemTree T V) : Prop where
  key : (m.mem endItem).key = default
  next : (m.mem endItem).next = none
  prev : ∀ b, (m.mem b).prev ≠ some endItem
  free : m.freeItem ≠ some endItem

namespace Sentinel

variable [Inhabited T] {m m' : ItemTree T V}

omit [LinearOrder T] in
lemma of_mem (h : Sentinel m) (hmem : m'.mem = m.mem) (hfree : m'.freeItem ≠ some endItem) :
    Sentinel m' :=
  ⟨hmem ▸ h.key, hmem ▸ h.next, hmem ▸ h.prev, hfree⟩

omit [LinearOrder T] in
lemma onlyLinks (h : Sentinel m) (ho : OnlyLinks m m') : Sentinel m' where
  key := (ho.key _).trans h.key
  next := (ho.next _).trans h.next
  prev b := by rw [ho.prev]; exact h.prev b
  free := by rw [ho.freeItem]; exact h.free

omit [LinearOrder T] in
lemma setBegin (h : Sentinel m) (p : Ptr) : Sentinel (m.setBegin p) := h.of_mem rfl h.free

omit [LinearOrder T] in
lemma setNext (h : Sentinel m) {a : ℕ} (ha : a ≠ endItem) (p : Ptr) : Sentinel (m.setNext a p) where
  key := ((onlyChain_setNext m a p).key _).trans h.key
  next := by
    refine (nextOf_setNext m a p (some endItem)).trans ?_
    rw [if_neg (fun e => ha (Option.some.inj e).symm)]
    exact h.next
  prev b := ne_of_eq_of_ne (prevOf_setNext m a b p) (h.prev b)
  free := h.free

omit [LinearOrder T] in
lemma setPrev (h : Sentinel m) (a : ℕ) {p : Ptr} (hp : p ≠ some endItem) :
    Sentinel (m.setPrev a p) where
  key := ((onlyChain_setPrev m a p).key _).trans h.key
  next := (nextOf_setPrev m a p (some endItem)).trans h.next
  prev b := by
    rw [show ((m.setPrev a p).mem b).prev = (m.setPrev a p).prevOf b from rfl, prevOf_setPrev]
    split_ifs
    · exact hp
    · exact h.prev b
  free := h.free

omit [LinearOrder T] in
lemma construct (h : Sentinel m) {a : ℕ} (ha : a ≠ endItem) (p : Ptr) (k : T) (v : V) :
    Sentinel (m.construct a p k v) := by
  have hend : (m.construct a p k v).mem endItem = m.mem endItem := by
    rw [ItemTree.construct, mem_modify, if_neg ha.symm]
  refine ⟨hend ▸ h.key, hend ▸ h.next, fun b => ?_, h.free⟩
  rw [ItemTree.construct, mem_modify]
  split_ifs with hb
  · exact h.prev a
  · exact h.prev b

omit [LinearOrder T] in
/-- The item an insertion gets is not the sentinel. -/
lemma allocItem (h : Sentinel m) : Sentinel m.allocItem.1 ∧ m.allocItem.2 ≠ endItem := by
  rw [ItemTree.allocItem]
  cases hf : m.freeItem with
  | some item => exact ⟨h, fun e => h.free (by rw [hf, ← e])⟩
  | none =>
    refine ⟨?_, Nat.succ_ne_zero _⟩
    have hblock := (((h.setPrev (4 * m.blocks + 1) (Option.some_ne_none _).symm).setPrev
      (4 * m.blocks + 1 + 1) (p := some (4 * m.blocks + 1)) (by simp)).setPrev
      (4 * m.blocks + 1 + 2) (p := some (4 * m.blocks + 1 + 1)) (by simp)).setPrev
      (4 * m.blocks + 1 + 3) (p := some (4 * m.blocks + 1 + 2)) (by simp)
    exact hblock.of_mem rfl (by simp [addBlock])

omit [LinearOrder T] in
lemma newItem (h : Sentinel m) (cell : Cell) (parent : Ptr) (k : T) (v : V) :
    Sentinel (m.newItem cell parent k v).1 ∧ (m.newItem cell parent k v).2 ≠ endItem := by
  obtain ⟨h₁, ha⟩ := h.allocItem
  rw [ItemTree.newItem]
  refine ⟨?_, ha⟩
  have h₂ := h₁.construct ha parent k v
  set m₂ := m.allocItem.1.construct m.allocItem.2 parent k v
  have h₃ : Sentinel { m₂ with freeItem := (m₂.mem m.allocItem.2).prev } :=
    h₂.of_mem rfl (h₂.prev m.allocItem.2)
  have h₄ := h₃.onlyLinks (onlyLinks_write _ cell (some m.allocItem.2))
  exact h₄.of_mem rfl h₄.free

omit [LinearOrder T] in
lemma linkBefore (h : Sentinel m) {a : ℕ} (ha : a ≠ endItem) (y : ℕ) : Sentinel (m.linkBefore a y) := by
  have ha' : (some a : Ptr) ≠ some endItem := fun e => ha (Option.some.inj e)
  have h₁ := h.setPrev a (h.prev y)
  unfold ItemTree.linkBefore
  refine setPrev (setNext ?_ ha _) y ha'
  cases hp : (m.mem y).prev with
  | none =>
    rw [hp] at h₁
    exact h₁.setBegin _
  | some p =>
    rw [hp] at h₁
    exact h₁.setNext (fun e => h.prev y (by rw [hp, e])) _

omit [LinearOrder T] in
lemma insertLeaf (h : Sentinel m) {cell : Cell} {parent : Ptr} {k : T} {v : V} {a : ℕ}
    (hrun : m.insertLeaf cell parent k v = some (m', a)) : Sentinel m' := by
  obtain ⟨h₁, ha⟩ := h.newItem cell parent k v
  have ha' : (some (m.newItem cell parent k v).2 : Ptr) ≠ some endItem := fun e =>
    ha (Option.some.inj e)
  rw [ItemTree.insertLeaf] at hrun
  cases parent with
  | none =>
    obtain ⟨rfl, -⟩ := Prod.mk.inj (Option.some.inj hrun)
    exact (((h₁.setPrev _ (Option.some_ne_none _).symm).setNext ha _).setBegin _).setPrev _ ha'
  | some parent =>
    obtain ⟨insertPos, -, hrun⟩ := Option.bind_eq_some_iff.mp hrun
    obtain ⟨m₁, h₂, hrun⟩ := Option.bind_eq_some_iff.mp hrun
    obtain ⟨rfl, -⟩ := Prod.mk.inj (Option.some.inj hrun)
    exact (h₁.linkBefore ha insertPos).onlyLinks (onlyLinks_rebalParentUpwards h₂)

omit [LinearOrder T] in
lemma release (h : Sentinel m) {a : ℕ} (ha : a ≠ endItem) : Sentinel (m.release a) :=
  (h.setPrev a h.free).of_mem rfl fun e => ha (Option.some.inj e)

omit [LinearOrder T] in
lemma unlinkItem (h : Sentinel m) {a : ℕ} (ha : a ≠ endItem) {r : Ptr}
    (hrun : m.unlinkItem a = some (m', r)) : Sentinel m' := by
  rw [ItemTree.unlinkItem] at hrun
  obtain ⟨next, -, hrun⟩ := Option.bind_eq_some_iff.mp hrun
  obtain ⟨rfl, -⟩ := Prod.mk.inj (Option.some.inj hrun)
  have h₁ : Sentinel (m.unchain a next) := by
    unfold ItemTree.unchain
    cases hp : (m.mem a).prev with
    | none => exact (h.setBegin _).setPrev _ (Option.some_ne_none _).symm
    | some p =>
      have hne : p ≠ endItem := fun e => h.prev a (by rw [hp, e])
      exact (h.setNext hne _).setPrev _ fun e => hne (Option.some.inj e)
  have h₂ : Sentinel { m.unchain a next with size := (m.unchain a next).size - 1 } :=
    h₁.of_mem rfl h₁.free
  exact h₂.release ha

omit [LinearOrder T] in
/-- The loop of `clear` -/
lemma freeItems : ∀ {fuel : ℕ} {m m' : ItemTree T V} {i : Ptr}, Sentinel m →
    m.freeItems fuel i = some m' → Sentinel m'
  | 0, _, _, _, _, hrun => by cases hrun
  | fuel + 1, m, m', i, h, hrun => by
    rw [ItemTree.freeItems] at hrun
    split_ifs at hrun with hi
    · obtain rfl := Option.some.inj hrun
      exact h
    · obtain ⟨i, rfl, hrun⟩ := Option.bind_eq_some_iff.mp hrun
      exact freeItems (h.release fun e => hi (by rw [e])) hrun

omit [LinearOrder T] in
lemma clear (h : Sentinel m) (hrun : m.clear = some m') : Sentinel m' := by
  rw [ItemTree.clear] at hrun
  obtain ⟨m₁, h₁, hrun⟩ := Option.bind_eq_some_iff.mp hrun
  obtain rfl := Option.some.inj hrun
  have h₂ := ((h.freeItems h₁).setBegin (some endItem)).setPrev endItem (Option.some_ne_none _).symm
  exact h₂.of_mem rfl h₂.free

omit [LinearOrder T] in
lemma remove (h : Sentinel m) {t : AvlTree ℕ} {free : List ℕ} (hv : Valid m t free) {a : ℕ}
    (ha : a ∈ t.inorder) {r : Ptr} (hrun : m.remove a = some (m', r)) : Sentinel m' := by
  obtain ⟨l₁, l₂, ht⟩ := List.append_of_mem ha
  obtain ⟨c, l, r', ht', s, rfl, -, -⟩ := hv.focus ht
  obtain ⟨m₁, p, m₂, t', h₁, h₂, hout⟩ := hv.takeOut
  rw [ItemTree.remove, h₁] at hrun
  simp only [Option.bind_eq_bind, Option.bind_some, h₂] at hrun
  exact (h.onlyLinks hout.only).unlinkItem (hv.ne_endItem (Or.inl ha)) hrun

end Sentinel

/-- The descent of an insertion ends at a leaf. -/
lemma insertFrom_leaf {k : T} {v : V} : ∀ {fuel : ℕ} {m : ItemTree T V} {cell : Cell} {parent : Ptr}
    {r : ItemTree T V × ℕ}, insertFrom k v fuel m cell parent = some r →
    ∃ cell parent, m.insertLeaf cell parent k v = some r
  | 0, _, _, _, _, h => by cases h
  | fuel + 1, m, cell, parent, r, h => by
    rw [insertFrom] at h
    split at h
    · exact ⟨cell, parent, h⟩
    · split_ifs at h
      · exact insertFrom_leaf h
      · exact insertFrom_leaf h

lemma insertAt_leaf {m : ItemTree T V} {p : ℕ} {k : T} {v : V} {r : ItemTree T V × ℕ}
    (h : insertAt m p k v = some r) : ∃ cell parent, m.insertLeaf cell parent k v = some r := by
  rw [insertAt] at h
  split_ifs at h with hend hlt
  · split at h
    · split_ifs at h
      · exact insertFrom_leaf h
      · exact insertFrom_leaf h
    · exact insertFrom_leaf h
  · split at h
    · exact insertFrom_leaf h
    · split_ifs at h
      · exact insertFrom_leaf h
      · exact insertFrom_leaf h
  · obtain ⟨next, -, h⟩ := Option.bind_eq_some_iff.mp h
    split_ifs at h
    · exact insertFrom_leaf h
    · exact insertFrom_leaf h

variable [Inhabited T]

/-- No operation changes the sentinel. -/
lemma exec_sentinel {m m' : ItemTree T V} {t : AvlTree ℕ} {free : List ℕ} {op : Op T V} {r : Ptr}
    (h : IsMultiMap m t free) (hs : Sentinel m) (hop : op.Allowed m)
    (hrun : op.exec m = some (m', r)) : Sentinel m' := by
  have hitems := h.valid.items_eq
  cases op with
  | insert k v =>
    obtain ⟨⟨m₁, it⟩, h₁, hrun⟩ := Option.bind_eq_some_iff.mp hrun
    obtain ⟨rfl, -⟩ := Prod.mk.inj (Option.some.inj hrun)
    obtain ⟨cell, parent, hleaf⟩ := insertFrom_leaf h₁
    exact hs.insertLeaf hleaf
  | insertAt p k v =>
    obtain ⟨⟨m₁, it⟩, h₁, hrun⟩ := Option.bind_eq_some_iff.mp hrun
    obtain ⟨rfl, -⟩ := Prod.mk.inj (Option.some.inj hrun)
    obtain ⟨cell, parent, hleaf⟩ := insertAt_leaf h₁
    exact hs.insertLeaf hleaf
  | removeKey k =>
    obtain ⟨m₁, h₁, hrun⟩ := Option.bind_eq_some_iff.mp hrun
    obtain ⟨rfl, -⟩ := Prod.mk.inj (Option.some.inj hrun)
    obtain ⟨a, hfind, ha⟩ := h.valid.find h.sorted k
    rw [ItemTree.removeKey, hfind] at h₁
    simp only [Option.bind_eq_bind, Option.bind_some] at h₁
    split_ifs at h₁ with hend
    · obtain rfl := Option.some.inj h₁
      exact hs
    · obtain ⟨⟨m₂, r₂⟩, h₂, h₁⟩ := Option.bind_eq_some_iff.mp h₁
      obtain rfl := Option.some.inj h₁
      exact hs.remove h.valid (ha.resolve_right fun e => hend e.1).1 h₂
  | remove it => exact hs.remove h.valid (hitems ▸ hop : it ∈ t.inorder) hrun
  | removeFront =>
    obtain ⟨a, ha, hrun⟩ := Option.bind_eq_some_iff.mp hrun
    refine hs.remove h.valid ?_ hrun
    cases ht : t.inorder with
    | nil => exact absurd (hitems.trans ht) hop
    | cons b l =>
      have hb : m.begin = some b := h.valid.begin_eq (by rw [ht]; rfl)
      simp [Option.some.inj (ha.symm.trans hb)]
  | removeBack =>
    obtain ⟨a, ha, hrun⟩ := Option.bind_eq_some_iff.mp hrun
    refine hs.remove h.valid ?_ hrun
    rw [h.valid.prev_eq _ _ rfl] at ha
    exact List.mem_of_getLast? ha
  | clear =>
    obtain ⟨m₁, h₁, hrun⟩ := Option.bind_eq_some_iff.mp hrun
    obtain ⟨rfl, -⟩ := Prod.mk.inj (Option.some.inj hrun)
    exact hs.clear h₁

/-- Every multimap that can be reached keeps the invariant, the sentinel included. -/
lemma Run.sentinel [Inhabited V] {cs : List (Call T V)} {m : ItemTree T V}
    (h : (system T V).Run cs m) : (∃ t free, IsMultiMap m t free) ∧ Sentinel m := by
  induction h with
  | start hm =>
    obtain rfl := hm
    exact ⟨⟨nil, [], valid_empty, List.Pairwise.nil⟩, rfl, rfl, fun _ => (Option.some_ne_none _).symm,
      (Option.some_ne_none _).symm⟩
  | next _ hstep ih =>
    obtain ⟨⟨t, free, hm⟩, hs⟩ := ih
    obtain ⟨op, r, hop, hrun, -⟩ := hstep
    obtain ⟨m₁, r₁, hrun₁, hex⟩ := exec_spec hm op hop
    obtain ⟨rfl, rfl⟩ := Prod.mk.inj (Option.some.inj (hrun₁.symm.trans hrun))
    exact ⟨hex.isMultiMap, exec_sentinel hm hs hop hrun⟩

/-! ## The item found -/

/-- The items with the key `k` to the left of the topmost one of them, and below it -/
def equalsLeft (key : ℕ → T) (k : T) : AvlTree ℕ → ℕ
  | nil => 0
  | node l a _ _ r =>
    if key a = k then l.inorder.countP fun b => key b = k
    else equalsLeft key k l + equalsLeft key k r

omit [Inhabited T] in
lemma equalsLeft_eq_zero {key : ℕ → T} {k : T} : ∀ {t : AvlTree ℕ}, (∀ b ∈ t.inorder, key b ≠ k) →
    equalsLeft key k t = 0
  | nil, _ => rfl
  | node l a h s r, hne => by
    rw [inorder_node] at hne
    rw [equalsLeft, if_neg (hne a (by simp)), equalsLeft_eq_zero fun b hb => hne b (by simp [hb]),
      equalsLeft_eq_zero fun b hb => hne b (by simp [hb])]

omit [Inhabited T] in
/-- The search ends at the topmost item with the key. -/
lemma findFrom_topmost {k : T} {t : AvlTree ℕ} : ∀ {fuel : ℕ} {m : ItemTree T V} {p : Ptr} {r : ℕ},
    Rep m.mem t p → (t.inorder.map fun b => (m.mem b).key).Pairwise (· ≤ ·) →
    m.findFrom k fuel t.top = some r → r ≠ endItem →
    ∃ l₁ l₂, t.inorder = l₁ ++ r :: l₂
      ∧ l₁.countP (fun b => (m.mem b).key = k) = equalsLeft (fun b => (m.mem b).key) k t := by
  induction t with
  | nil =>
    intro fuel m p r _ _ hrun hr
    have hrun' : some endItem = some r := by cases fuel <;> exact hrun
    exact absurd (Option.some.inj hrun').symm hr
  | node tl a h s tr ihl ihr =>
    rintro (_ | fuel) m p r hrep hs hrun hr
    · rw [top_node] at hrun
      cases hrun
    · obtain ⟨hsl, hsr, hla, har⟩ := keys_node hs
      obtain ⟨hleft, hright, h₂, h₃⟩ := children_node hrep
      rw [top_node, findFrom, hleft, hright] at hrun
      split_ifs at hrun with hgt hlt
      · obtain ⟨l₁, l₂, hio, hcount⟩ := ihr h₃ hsr hrun hr
        have hne : ∀ b ∈ tl.inorder, (m.mem b).key ≠ k := fun b hb => ((hla b hb).trans_lt hgt).ne
        refine ⟨tl.inorder ++ a :: l₁, l₂, by rw [inorder_node, hio]; simp, ?_⟩
        rw [List.countP_append, List.countP_eq_zero.mpr fun b hb => by simpa using hne b hb,
          List.countP_cons_of_neg (by simpa using hgt.ne), hcount, equalsLeft, if_neg hgt.ne,
          equalsLeft_eq_zero hne]
      · obtain ⟨l₁, l₂, hio, hcount⟩ := ihl h₂ hsl hrun hr
        have hne : ∀ b ∈ tr.inorder, (m.mem b).key ≠ k := fun b hb =>
          (hlt.trans_le (har b hb)).ne'
        refine ⟨l₁, l₂ ++ a :: tr.inorder, by rw [inorder_node, hio]; simp, ?_⟩
        rw [hcount, equalsLeft, if_neg hlt.ne', equalsLeft_eq_zero hne, Nat.add_zero]
      · obtain rfl := Option.some.inj hrun
        refine ⟨tl.inorder, tr.inorder, by rw [inorder_node], ?_⟩
        rw [equalsLeft, if_pos (le_antisymm (not_lt.mp hlt) (not_lt.mp hgt))]

/-! ## Counting -/

/-- The number of entries with the key -/
def entriesWith (m : ItemTree T V) (k : T) : ℕ := m.contents.countP fun e => e.1 = k

/-- No entry has a greater key, and the sentinel has the same one. -/
def ReachesSentinel (m : ItemTree T V) (k : T) : Prop :=
  (∀ b ∈ m.items, (m.mem b).key ≤ k) ∧ k = default

/-- The loop of `count` counts the items with the key, and the sentinel when it gets there. -/
lemma countFrom_spec {m : ItemTree T V} {k : T} (hs : Sentinel m) : ∀ {l : List ℕ} {fuel n : ℕ}
    {x : Ptr}, Chain m.nextOf m.prevOf x (l ++ [endItem]) →
    (l.map fun b => (m.mem b).key).Pairwise (· ≤ ·) → (∀ b ∈ l, k ≤ (m.mem b).key) →
    l.length < fuel →
    ∃ extra, countFrom m k fuel (m.nextOf x) n
        = some (n + l.countP (fun b => (m.mem b).key = k) + extra)
      ∧ ((∀ b ∈ l, (m.mem b).key ≤ k) ∧ k = default → extra = 1)
      ∧ (¬ ((∀ b ∈ l, (m.mem b).key ≤ k) ∧ k = default) → extra = 0) := by
  intro l
  induction l with
  | nil =>
    rintro (_ | fuel) n x hch - - hf
    · exact absurd hf (Nat.not_lt_zero _)
    · rw [hch.1, countFrom, hs.key, hs.next]
      split_ifs with hk
      · refine ⟨1, by cases fuel <;> rfl, fun _ => rfl, fun h => absurd ⟨by simp, hk.symm⟩ h⟩
      · exact ⟨0, rfl, fun h => absurd h.2.symm hk, fun _ => rfl⟩
  | cons a l ih =>
    rintro (_ | fuel) n x ⟨hx, -, hch⟩ hsort hge hf
    · exact absurd hf (Nat.not_lt_zero _)
    · rw [List.map_cons, List.pairwise_cons] at hsort
      rw [hx, countFrom]
      split_ifs with hk
      · obtain ⟨extra, hrun, h₁, h₀⟩ := ih (n := n + 1) hch hsort.2
          (fun b hb => hge b (List.mem_cons_of_mem _ hb)) (Nat.lt_of_succ_lt_succ hf)
        have hall : (∀ b ∈ a :: l, (m.mem b).key ≤ k) ↔ ∀ b ∈ l, (m.mem b).key ≤ k := by
          rw [List.forall_mem_cons, and_iff_right hk.le]
        rw [hall]
        refine ⟨extra, ?_, h₁, h₀⟩
        rw [show (m.mem a).next = m.nextOf (some a) from rfl, hrun,
          List.countP_cons_of_pos (by simpa using hk)]
        congr 1
        omega
      · have hlt : k < (m.mem a).key := lt_of_le_of_ne (hge a (by simp)) (Ne.symm hk)
        have hne : ∀ b ∈ a :: l, (m.mem b).key ≠ k := by
          intro b hb
          rcases List.mem_cons.mp hb with rfl | hb
          · exact hk
          · exact (hlt.trans_le (hsort.1 _ (List.mem_map_of_mem
              (f := fun b => (m.mem b).key) hb))).ne'
        refine ⟨0, ?_, fun h => absurd (h.1 a (by simp)) (not_le.mpr hlt), fun _ => rfl⟩
        rw [List.countP_eq_zero.mpr fun b hb => by simpa using hne b hb]
        rfl

/-- What `count` returns for a key that is there: all equal items from the topmost one on, and the
    sentinel on top of them when it is reached. -/
lemma count_spec {m : ItemTree T V} {t : AvlTree ℕ} {free : List ℕ} (h : IsMultiMap m t free)
    (hs : Sentinel m) {k : T} (hk : ∃ b ∈ m.items, (m.mem b).key = k) :
    ∃ n extra, count m k = some n
      ∧ n + equalsLeft (fun b => (m.mem b).key) k t = entriesWith m k + extra
      ∧ (ReachesSentinel m k → extra = 1) ∧ (¬ ReachesSentinel m k → extra = 0) := by
  have hitems := h.valid.items_eq
  obtain ⟨r, hfind, ⟨hr, hrk⟩ | ⟨-, hne⟩⟩ := h.valid.find h.sorted k
  · have hend : r ≠ endItem := h.valid.ne_endItem (Or.inl hr)
    have hfind' := hfind
    rw [ItemTree.find, h.valid.root_eq] at hfind'
    obtain ⟨l₁, l₂, ht, hleft⟩ := findFrom_topmost h.valid.links.sub h.sorted hfind' hend
    have hch := h.valid.chain
    rw [ht, List.append_assoc, chain_append, List.cons_append] at hch
    have hsort := h.sorted
    rw [ht, List.map_append, List.map_cons, List.pairwise_append, List.pairwise_cons] at hsort
    have hge : ∀ b ∈ l₂, k ≤ (m.mem b).key := fun b hb => hrk ▸ hsort.2.1.1 _
      (List.mem_map_of_mem (f := fun b => (m.mem b).key) hb)
    have hle : ∀ b ∈ l₁, (m.mem b).key ≤ k := fun b hb => hrk ▸ hsort.2.2 _
      (List.mem_map_of_mem (f := fun b => (m.mem b).key) hb) _ List.mem_cons_self
    have hlen : l₂.length < m.size + 1 := by
      rw [h.valid.size, ht, List.length_append, List.length_cons]
      omega
    obtain ⟨extra, hrun, h₁, h₀⟩ := countFrom_spec (n := 1) hs hch.2.2.2 hsort.2.1.2 hge hlen
    have hreach : ReachesSentinel m k ↔ (∀ b ∈ l₂, (m.mem b).key ≤ k) ∧ k = default := by
      rw [ReachesSentinel, hitems, ht]
      refine and_congr_left fun _ => ⟨fun h b hb => h b (by simp [hb]), fun h b hb => ?_⟩
      rcases List.mem_append.mp hb with hb | hb
      · exact hle b hb
      · rcases List.mem_cons.mp hb with rfl | hb
        · exact hrk.le
        · exact h b hb
    rw [hreach]
    refine ⟨1 + l₂.countP (fun b => (m.mem b).key = k) + extra, extra, ?_, ?_, h₁, h₀⟩
    · rw [count, hfind]
      simp only [Option.bind_eq_bind, Option.bind_some]
      rw [if_neg hend]
      exact hrun
    · rw [entriesWith, contents, List.countP_map, hitems, ht, List.countP_append,
        List.countP_cons_of_pos (by simpa using hrk), ← hleft]
      simp only [Function.comp_def]
      omega
  · obtain ⟨b, hb, hbk⟩ := hk
    exact absurd hbk (hne b (hitems ▸ hb))

omit [Inhabited T] in
lemma count_absent {m : ItemTree T V} {t : AvlTree ℕ} {free : List ℕ} (h : IsMultiMap m t free)
    {k : T} (hk : ∀ b ∈ m.items, (m.mem b).key ≠ k) : count m k = some 0 ∧ entriesWith m k = 0 := by
  have hitems := h.valid.items_eq
  obtain ⟨r, hfind, ⟨hr, hrk⟩ | ⟨rfl, -⟩⟩ := h.valid.find h.sorted k
  · exact absurd hrk (hk r (hitems ▸ hr))
  · refine ⟨?_, ?_⟩
    · rw [count, hfind]
      rfl
    · rw [entriesWith, contents, List.countP_map]
      exact List.countP_eq_zero.mpr fun b hb => by simpa using hk b hb

/-- **When `count` is right.**  In every multimap that can be reached `count` returns, and it returns
    the number of entries with the key exactly when there is none, or as many of them are in the left
    subtree of the topmost one as the sentinel adds: one if the key is the default one and no entry
    has a greater key, and else none. -/
theorem count_correct_iff [Inhabited V] {cs : List (Call T V)} {m : ItemTree T V}
    (h : (system T V).Run cs m) (k : T) :
    ∃ t n, Represents m [] t ∧ t.inorder = m.items ∧ count m k = some n
      ∧ (n = entriesWith m k ↔ (∀ b ∈ m.items, (m.mem b).key ≠ k)
        ∨ (ReachesSentinel m k ∧ equalsLeft (fun b => (m.mem b).key) k t = 1)
        ∨ (¬ ReachesSentinel m k ∧ equalsLeft (fun b => (m.mem b).key) k t = 0)) := by
  obtain ⟨⟨t, free, hm⟩, hs⟩ := Run.sentinel h
  by_cases hk : ∃ b ∈ m.items, (m.mem b).key = k
  · obtain ⟨n, extra, hrun, hn, h₁, h₀⟩ := count_spec hm hs hk
    refine ⟨t, n, hm.valid.links, hm.valid.items_eq.symm, hrun, ?_⟩
    have hnot : ¬ ∀ b ∈ m.items, (m.mem b).key ≠ k := fun hall => by
      obtain ⟨b, hb, hbk⟩ := hk
      exact hall b hb hbk
    by_cases hr : ReachesSentinel m k
    · have := h₁ hr
      simp only [hnot, hr, true_and, not_true, false_and, or_false, false_or]
      omega
    · have := h₀ hr
      simp only [hnot, hr, true_and, not_false_iff, false_and, false_or]
      omega
  · have habsent : ∀ b ∈ m.items, (m.mem b).key ≠ k := fun b hb hbk => hk ⟨b, hb, hbk⟩
    obtain ⟨hrun, hzero⟩ := count_absent hm habsent
    exact ⟨t, 0, hm.valid.links, hm.valid.items_eq.symm, hrun,
      iff_of_true hzero.symm (Or.inl habsent)⟩

/-- Three entries with one key: two are counted. -/
theorem count_correct_iff_three : ∃ (m : ItemTree ℕ ℕ) (t : AvlTree ℕ),
    m.contents = [(1, 10), (1, 11), (1, 12)] ∧ Represents m [] t ∧ count m 1 = some 2 ∧
    (2 = entriesWith m 1 ↔ (∀ b ∈ m.items, (m.mem b).key ≠ 1)
      ∨ (ReachesSentinel m 1 ∧ equalsLeft (fun b => (m.mem b).key) 1 t = 1)
      ∨ (¬ ReachesSentinel m 1 ∧ equalsLeft (fun b => (m.mem b).key) 1 t = 0)) := by
  obtain ⟨m, _, hrun, hp⟩ := exists_run [.insert 1 10, .insert 1 11, .insert 1 12]
    (p := fun r => r.1.contents = [(1, 10), (1, 11), (1, 12)] ∧ count r.1 1 = some 2) (by decide)
  obtain ⟨hcontents, hcount⟩ := of_decide_eq_true hp
  obtain ⟨t, n, ht, -, hn, hiff⟩ := count_correct_iff hrun 1
  obtain rfl : 2 = n := Option.some_inj.mp (hcount.symm.trans hn)
  exact ⟨m, t, hcontents, ht, hcount, hiff⟩

/-- Of three entries with one key two are counted, and of one entry with the default key, two. -/
theorem count_wrong :
    (∃ cs m, (system ℕ ℕ).Run cs m ∧ count m 1 = some 2 ∧ entriesWith m 1 = 3)
      ∧ ∃ cs m, (system ℕ ℕ).Run cs m ∧ count m 0 = some 2 ∧ entriesWith m 0 = 1 := by
  obtain ⟨m, cs, hrun, hp⟩ := exists_run [.insert 1 10, .insert 1 11, .insert 1 12]
    (p := fun r => count r.1 1 = some 2 ∧ entriesWith r.1 1 = 3) (by decide)
  obtain ⟨m', cs', hrun', hp'⟩ := exists_run [.insert 0 10]
    (p := fun r => count r.1 0 = some 2 ∧ entriesWith r.1 0 = 1) (by decide)
  exact ⟨⟨cs, m, hrun, of_decide_eq_true hp⟩, cs', m', hrun', of_decide_eq_true hp'⟩

end MultiMap

end Nstd
