import Nstd.Container.ItemTreeRemove

/-!
# `MultiMap`

The part of `MultiMap.hpp` that differs from `Map.hpp`: the descent of `insert` never stops at an
item with the same key but goes on to its right, so equal keys are in the order of insertion.

* `IsMultiMap` — a valid item tree whose keys do not decrease.
* `insert_spec` — one entry more, behind its equals.
* `insertAt_spec` — with a hint, one entry more, and the keys still in order.
-/

namespace Nstd

open BalancedTree
open BalancedTree.AvlTree
open Linked

variable {T V : Type}

namespace MultiMap

open ItemTree

variable [LinearOrder T]

/-- The loop of the private `insert(Item** cell, Item* parent, key, value)`. -/
def insertFrom (key : T) (value : V) :
    ℕ → ItemTree T V → Cell → Ptr → Option (ItemTree T V × ℕ)
  | 0, _, _, _ => none
  | fuel + 1, m, cell, parent =>
    match m.read cell with
    | none => m.insertLeaf cell parent key value
    | some position =>
      if key < (m.mem position).key then
        insertFrom key value fuel m (.child position .left) (some position)
      else insertFrom key value fuel m (.child position .right) (some position)

/-- `insert(key, value)`. -/
def insert (m : ItemTree T V) (key : T) (value : V) : Option (ItemTree T V × ℕ) :=
  insertFrom key value (m.size + 1) m .root none

/-- `insert(cell, parent, key, value)`. -/
def insertCell (m : ItemTree T V) (cell : Cell) (parent : Ptr) (key : T) (value : V) :
    Option (ItemTree T V × ℕ) :=
  insertFrom key value (m.size + 1) m cell parent

/-- `insert(position, key, value)`. -/
def insertAt (m : ItemTree T V) (position : ℕ) (key : T) (value : V) : Option (ItemTree T V × ℕ) :=
  if position = endItem then
    match (m.mem position).prev with
    | some prev =>
      if key > (m.mem prev).key then insertCell m (.child prev .right) (some prev) key value
      else insert m key value
    | none => insert m key value
  else if key < (m.mem position).key then
    match (m.mem position).prev with
    | none => insertCell m (.child position .left) (some position) key value
    | some prev =>
      if key ≥ (m.mem prev).key then
        insertCell m (.child position .left) (some position) key value
      else insert m key value
  else do
    let next ← (m.mem position).next
    if next = endItem ∨ key ≤ (m.mem next).key then
      insertCell m (.child position .right) (some position) key value
    else insert m key value

/-! ## The invariant of a multimap -/

/-- A valid item tree whose keys do not decrease. -/
structure IsMultiMap (m : ItemTree T V) (t : AvlTree ℕ) (free : List ℕ) : Prop where
  valid : Valid m t free
  sorted : (t.inorder.map fun b => (m.mem b).key).Pairwise (· ≤ ·)

lemma key_le {m : ItemTree T V} {t : AvlTree ℕ} {free : List ℕ} (h : IsMultiMap m t free)
    (l₁ l₂ : List ℕ) (ht : t.inorder = l₁ ++ l₂) {a b : ℕ} (ha : a ∈ l₁) (hb : b ∈ l₂) :
    (m.mem a).key ≤ (m.mem b).key := by
  have hs := h.sorted
  rw [ht, List.map_append, List.pairwise_append] at hs
  exact hs.2.2 _ (List.mem_map_of_mem (f := fun b => (m.mem b).key) ha) _
    (List.mem_map_of_mem (f := fun b => (m.mem b).key) hb)

/-- One entry more: the new item `a` stands between the items `l₁` and the items `l₂`. -/
structure AddedAt (m m' : ItemTree T V) (t : AvlTree ℕ) (l₁ l₂ : List ℕ) (k : T) (v : V) (a : ℕ) :
    Prop where
  isMultiMap : ∃ t' free', IsMultiMap m' t' free' ∧ t'.inorder = l₁ ++ a :: l₂
  items : t.inorder = l₁ ++ l₂
  key : (m'.mem a).key = k
  value : (m'.mem a).value = v
  other : ∀ b ∈ t.inorder, (m'.mem b).key = (m.mem b).key ∧ (m'.mem b).value = (m.mem b).value

/-- One entry more: the new item `a` stands behind all items with a key up to `k`. -/
structure Added (m m' : ItemTree T V) (t : AvlTree ℕ) (k : T) (v : V) (a : ℕ) : Prop where
  isMultiMap : ∃ t' free' l₁ l₂, IsMultiMap m' t' free' ∧ t.inorder = l₁ ++ l₂
    ∧ t'.inorder = l₁ ++ a :: l₂ ∧ (∀ b ∈ l₁, (m.mem b).key ≤ k) ∧ ∀ b ∈ l₂, k < (m.mem b).key
  key : (m'.mem a).key = k
  value : (m'.mem a).value = v
  other : ∀ b ∈ t.inorder, (m'.mem b).key = (m.mem b).key ∧ (m'.mem b).value = (m.mem b).value

lemma AddedAt.added {m m' : ItemTree T V} {t : AvlTree ℕ} {l₁ l₂ : List ℕ} {k : T} {v : V} {a : ℕ}
    (h : AddedAt m m' t l₁ l₂ k v a) (hb : ∀ b ∈ l₁, (m.mem b).key ≤ k)
    (ha : ∀ b ∈ l₂, k < (m.mem b).key) : Added m m' t k v a := by
  obtain ⟨t', free', h', ht'⟩ := h.isMultiMap
  exact ⟨⟨t', free', l₁, l₂, h', h.items, ht', hb, ha⟩, h.key, h.value, h.other⟩

lemma Added.addedAt {m m' : ItemTree T V} {t : AvlTree ℕ} {k : T} {v : V} {a : ℕ}
    (h : Added m m' t k v a) : ∃ l₁ l₂, AddedAt m m' t l₁ l₂ k v a
      ∧ (∀ b ∈ l₁, (m.mem b).key ≤ k) ∧ ∀ b ∈ l₂, k < (m.mem b).key := by
  obtain ⟨t', free', l₁, l₂, h', ht, ht', hb, ha⟩ := h.isMultiMap
  exact ⟨l₁, l₂, ⟨⟨t', free', h', ht'⟩, ht, h.key, h.value, h.other⟩, hb, ha⟩

/-- A new item in a hole that its key belongs into -/
lemma addedAt_inserted {m m' : ItemTree T V} {c : List (Frame ℕ)} {free : List ℕ} {a : ℕ} {k : T}
    {v : V} (h : IsMultiMap m (plug c nil) free) (hb : ∀ b ∈ before c, (m.mem b).key ≤ k)
    (ha : ∀ b ∈ after c, k ≤ (m.mem b).key) (hin : Inserted m m' c a k v) :
    AddedAt m m' (plug c nil) (before c) (after c) k v a := by
  obtain ⟨free', hv'⟩ := hin.valid
  have hio : (plug c nil).inorder = before c ++ after c := by rw [inorder_plug]; simp
  have hio' : (retrace c (node nil a 1 0 nil)).inorder = before c ++ a :: after c := by
    rw [inorder_retrace]; simp
  refine ⟨⟨_, free', ⟨hv', ?_⟩, hio'⟩, hio, hin.key, hin.value, hin.other⟩
  have hkeys : ∀ l : List ℕ, (∀ b ∈ l, b ∈ before c ++ after c) →
      l.map (fun b => (m'.mem b).key) = l.map fun b => (m.mem b).key := by
    intro l hl
    apply List.map_congr_left
    intro b hb
    exact (hin.other b (by rw [hio]; exact hl b hb)).1
  have hs := h.sorted
  rw [hio, List.map_append, List.pairwise_append] at hs
  rw [hio', List.map_append, List.map_cons, List.pairwise_append, List.pairwise_cons, hin.key,
    hkeys (before c) (by intro b hb; simp [hb]), hkeys (after c) (by intro b hb; simp [hb])]
  refine ⟨hs.1, ⟨?_, hs.2.1⟩, ?_⟩
  · intro x hx
    obtain ⟨b, hb', rfl⟩ := List.mem_map.mp hx
    exact ha b hb'
  · intro x hx y hy
    obtain ⟨b, hb', rfl⟩ := List.mem_map.mp hx
    rcases List.mem_cons.mp hy with rfl | hy
    · exact hb b hb'
    · exact hs.2.2 _ hx _ hy

/-- **The descent** below a cell between whose neighbours the key lies goes to the place behind the
last item there with a key up to `k`. -/
theorem insertFrom_spec {k : T} {v : V} {t : AvlTree ℕ} : ∀ {fuel : ℕ} {m : ItemTree T V}
    {c : List (Frame ℕ)} {free : List ℕ}, IsMultiMap m (plug c t) free →
    (∀ b ∈ before c, (m.mem b).key ≤ k) → (∀ b ∈ after c, k ≤ (m.mem b).key) →
    t.inorder.length < fuel →
    ∃ m' a l₁ l₂, insertFrom k v fuel m (pathCell c) (pathParent c) = some (m', a)
      ∧ (∀ b ∈ l₁, (m.mem b).key ≤ k) ∧ (∀ b ∈ l₂, k < (m.mem b).key)
      ∧ AddedAt m m' (plug c t) (before c ++ l₁) (l₂ ++ after c) k v a := by
  induction t with
  | nil =>
    intro fuel m c free h hb ha hf
    cases fuel with
    | zero => exact absurd hf (Nat.not_lt_zero _)
    | succ fuel =>
      obtain ⟨m', a, hrun, hin⟩ := h.valid.insertLeaf k v
      rw [insertFrom, (represents_plug.mpr h.valid.links).read, top_nil]
      refine ⟨m', a, [], [], hrun, by simp, by simp, ?_⟩
      rw [List.append_nil]
      exact addedAt_inserted h hb ha hin
  | node tl b ht s tr ihl ihr =>
    intro fuel m c free h hb ha hf
    cases fuel with
    | zero => exact absurd hf (Nat.not_lt_zero _)
    | succ fuel =>
      have hio : (plug c (node tl b ht s tr)).inorder
          = (before c ++ tl.inorder) ++ b :: (tr.inorder ++ after c) := by
        rw [inorder_plug, inorder_node]; simp
      simp only [inorder_node, List.length_append, List.length_cons] at hf
      rw [insertFrom, (represents_plug.mpr h.valid.links).read, top_node]
      simp only
      split_ifs with hlt
      · have hright : ∀ w ∈ b :: tr.inorder, k < (m.mem w).key := by
          intro w hw
          rcases List.mem_cons.mp hw with rfl | hw
          · exact hlt
          · exact hlt.trans_le (key_le h (before c ++ tl.inorder ++ [b]) (tr.inorder ++ after c)
              (by rw [hio]; simp) (by simp) (by simp [hw]))
        have hafter : ∀ w ∈ after (⟨.left, b, ht, s, tr⟩ :: c), k ≤ (m.mem w).key := by
          intro w hw
          rcases List.mem_append.mp (show w ∈ (b :: tr.inorder) ++ after c from hw) with hw | hw
          · exact (hright w hw).le
          · exact ha w hw
        have hbefore : before (⟨.left, b, ht, s, tr⟩ :: c) = before c := List.append_nil _
        obtain ⟨m', a, l₁, l₂, hrun, hl₁, hl₂, hadd⟩ := ihl (c := ⟨.left, b, ht, s, tr⟩ :: c)
          h (hbefore.symm ▸ hb) hafter (by omega : tl.inorder.length < fuel)
        refine ⟨m', a, l₁, l₂ ++ b :: tr.inorder, hrun, hl₁, ?_, ?_⟩
        · intro w hw
          rcases List.mem_append.mp hw with hw | hw
          · exact hl₂ w hw
          · exact hright w hw
        · rw [List.append_assoc, ← hbefore]
          exact hadd
      · have hle := not_lt.mp hlt
        have hleft : ∀ w ∈ tl.inorder ++ [b], (m.mem w).key ≤ k := by
          intro w hw
          rcases List.mem_append.mp hw with hw | hw
          · exact (key_le h _ _ hio (List.mem_append_right _ hw) (by simp)).trans hle
          · rwa [List.mem_singleton.mp hw]
        have hbefore : ∀ w ∈ before (⟨.right, b, ht, s, tl⟩ :: c), (m.mem w).key ≤ k := by
          intro w hw
          rcases List.mem_append.mp (show w ∈ before c ++ (tl.inorder ++ [b]) from hw) with
            hw | hw
          · exact hb w hw
          · exact hleft w hw
        obtain ⟨m', a, l₁, l₂, hrun, hl₁, hl₂, hadd⟩ := ihr (c := ⟨.right, b, ht, s, tl⟩ :: c)
          h hbefore ha (by omega : tr.inorder.length < fuel)
        refine ⟨m', a, (tl.inorder ++ [b]) ++ l₁, l₂, hrun, ?_, hl₂, ?_⟩
        · intro w hw
          rcases List.mem_append.mp hw with hw | hw
          · exact hleft w hw
          · exact hl₁ w hw
        · rw [← List.append_assoc]
          exact hadd

/-- **Inserting** adds one entry behind its equals. -/
theorem insert_spec {m : ItemTree T V} {t : AvlTree ℕ} {free : List ℕ} (h : IsMultiMap m t free)
    (k : T) (v : V) : ∃ m' a, insert m k v = some (m', a) ∧ Added m m' t k v a := by
  obtain ⟨m', a, l₁, l₂, hrun, hl₁, hl₂, hadd⟩ := insertFrom_spec (c := []) h
    (by simp) (by simp) (h.valid.size ▸ Nat.lt_succ_self _ : t.inorder.length < m.size + 1)
  rw [before_nil, after_nil, List.nil_append, List.append_nil] at hadd
  exact ⟨m', a, hrun, hadd.added hl₁ hl₂⟩

/-! ## Hints -/

/-- Going in on side `d` of an item, when the key lies between it and its neighbour there -/
lemma insertCell_spec {m : ItemTree T V} {t : AvlTree ℕ} {free l₁ l₂ : List ℕ} {k : T} {a : ℕ}
    (h : IsMultiMap m t free) (ht : t.inorder = l₁ ++ a :: l₂) (v : V) (d : Side)
    (hb : ∀ b ∈ l₁, (m.mem b).key ≤ k) (ha : ∀ b ∈ l₂, k ≤ (m.mem b).key)
    (hd : match d with | .left => k ≤ (m.mem a).key | .right => (m.mem a).key ≤ k) :
    ∃ m' b l₁' l₂', insertCell m (.child a d) (some a) k v = some (m', b)
      ∧ AddedAt m m' t l₁' l₂' k v b := by
  obtain ⟨c, tl, tr, ht', s, rfl, rfl, rfl⟩ := h.valid.focus ht
  have hsize : (plug c (node tl a ht' s tr)).inorder.length < m.size + 1 :=
    h.valid.size ▸ Nat.lt_succ_self _
  rw [ht, List.length_append, List.length_append, List.length_cons, List.length_append] at hsize
  cases d with
  | left =>
    have hbefore : before (⟨.left, a, ht', s, tr⟩ :: c) = before c := List.append_nil _
    have hafter : ∀ w ∈ after (⟨.left, a, ht', s, tr⟩ :: c), k ≤ (m.mem w).key := by
      intro w hw
      rcases List.mem_cons.mp (show w ∈ a :: (tr.inorder ++ after c) from hw) with rfl | hw
      · exact hd
      · exact ha w hw
    obtain ⟨m', b, l₁, l₂, hrun, -, -, hadd⟩ := insertFrom_spec
      (c := ⟨.left, a, ht', s, tr⟩ :: c) h
      (fun w hw => hb w (List.mem_append_left _ (hbefore ▸ hw)))
      hafter (by omega : tl.inorder.length < m.size + 1)
    exact ⟨m', b, _, _, hrun, hadd⟩
  | right =>
    have hbefore : ∀ w ∈ before (⟨.right, a, ht', s, tl⟩ :: c), (m.mem w).key ≤ k := by
      intro w hw
      rw [show before (⟨.right, a, ht', s, tl⟩ :: c) = before c ++ (tl.inorder ++ [a]) from rfl,
        ← List.append_assoc, List.mem_append, List.mem_singleton] at hw
      rcases hw with hw | rfl
      · exact hb w hw
      · exact hd
    obtain ⟨m', b, l₁, l₂, hrun, -, -, hadd⟩ := insertFrom_spec
      (c := ⟨.right, a, ht', s, tl⟩ :: c) h hbefore
      (fun w hw => ha w (List.mem_append_right _ hw)) (by omega : tr.inorder.length < m.size + 1)
    exact ⟨m', b, _, _, hrun, hadd⟩

/-- Above the last of some items the key is above all of them. -/
lemma le_of_getLast {m : ItemTree T V} {t : AvlTree ℕ} {free l₁ l₂ : List ℕ} {k : T} {p : ℕ}
    (h : IsMultiMap m t free) (ht : t.inorder = l₁ ++ l₂) (hp : l₁.getLast? = some p)
    (hk : (m.mem p).key ≤ k) : ∀ b ∈ l₁, (m.mem b).key ≤ k := by
  obtain ⟨l₀, rfl⟩ := List.getLast?_eq_some_iff.mp hp
  intro b hb
  rcases List.mem_append.mp hb with hb | hb
  · exact (key_le h l₀ (p :: l₂) (by rw [ht]; simp) hb (by simp)).trans hk
  · rwa [List.mem_singleton.mp hb]

/-- **Inserting with a hint** adds one entry, next to the hint or behind its equals. -/
theorem insertAt_spec {m : ItemTree T V} {t : AvlTree ℕ} {free : List ℕ} (h : IsMultiMap m t free)
    {position : ℕ} (hp : position ∈ t.inorder ∨ position = endItem) (k : T) (v : V) :
    ∃ m' a l₁ l₂, insertAt m position k v = some (m', a) ∧ AddedAt m m' t l₁ l₂ k v a := by
  have hinsert : ∃ m' a l₁ l₂, insert m k v = some (m', a) ∧ AddedAt m m' t l₁ l₂ k v a := by
    obtain ⟨m', a, hrun, hadd⟩ := insert_spec h k v
    obtain ⟨l₁, l₂, hadd, -⟩ := hadd.addedAt
    exact ⟨m', a, l₁, l₂, hrun, hadd⟩
  rw [insertAt]
  by_cases hend : position = endItem
  · -- the end, after the last item
    subst hend
    rw [if_pos rfl, h.valid.prev_eq _ _ rfl]
    cases hlast : t.inorder.getLast? with
    | none => exact hinsert
    | some p =>
      obtain ⟨l₀, ht⟩ := List.getLast?_eq_some_iff.mp hlast
      simp only
      split_ifs with hgt
      · refine insertCell_spec h ht v .right (fun b hb => ?_) (by simp) (le_of_lt hgt)
        exact le_of_getLast h (by rw [List.append_nil]) hlast (le_of_lt hgt) b
          (by rw [ht]; simp [hb])
      · exact hinsert
  · obtain ⟨l₁, l₂, ht⟩ := List.append_of_mem (hp.resolve_right hend)
    rw [if_neg hend]
    split_ifs with hlt
    · -- before the item
      rw [h.valid.prev_eq l₁ (l₂ ++ [endItem]) (by rw [ht]; simp)]
      have ha : ∀ b ∈ l₂, k ≤ (m.mem b).key := fun b hb =>
        hlt.le.trans (key_le h (l₁ ++ [position]) l₂ (by rw [ht]; simp) (by simp) hb)
      cases hlast : l₁.getLast? with
      | none =>
        obtain rfl := List.getLast?_eq_none_iff.mp hlast
        exact insertCell_spec h ht v .left (by simp) ha hlt.le
      | some p =>
        simp only
        split_ifs with hge
        · exact insertCell_spec h ht v .left (le_of_getLast h ht hlast hge) ha hlt.le
        · exact hinsert
    · -- after the item
      have hle := not_lt.mp hlt
      obtain ⟨y, l₀, hy⟩ : ∃ y l₀, l₂ ++ [endItem] = y :: l₀ := by cases l₂ <;> simp
      rw [h.valid.next_eq l₁ l₀ (y := y) (by rw [ht, ← hy]; simp)]
      simp only [Option.bind_eq_bind, Option.bind_some]
      split_ifs with hnext
      · refine insertCell_spec h ht v .right
          (fun b hb => (key_le h _ _ ht hb (by simp)).trans hle) (fun b hb => ?_) hle
        cases l₂ with
        | nil => simp at hb
        | cons z l₂ =>
          obtain ⟨rfl, -⟩ := List.cons.inj hy
          have hz : k ≤ (m.mem z).key := hnext.resolve_left (h.valid.ne_endItem (Or.inl (by
            rw [ht]; simp)))
          rcases List.mem_cons.mp hb with rfl | hb
          · exact hz
          · exact hz.trans (key_le h (l₁ ++ [position, z]) l₂ (by rw [ht]; simp) (by simp) hb)
      · exact hinsert

/-- Items that are in order stay in order without one of them. -/
lemma isMultiMap_of_remove {m m' : ItemTree T V} {t t' : AvlTree ℕ} {free free' l₁ l₂ : List ℕ}
    {a : ℕ} (h : IsMultiMap m t free) (ht : t.inorder = l₁ ++ a :: l₂) (hv : Valid m' t' free')
    (ht' : t'.inorder = l₁ ++ l₂) (hdata : SameData m m') : IsMultiMap m' t' free' := by
  refine ⟨hv, ?_⟩
  have hs := h.sorted
  rw [ht] at hs
  have hsub : (l₁ ++ l₂).Sublist (l₁ ++ a :: l₂) :=
    (List.Sublist.refl l₁).append (List.sublist_cons_self a l₂)
  have hkeys : (fun b => (m'.mem b).key) = fun b => (m.mem b).key := by
    funext b
    exact (hdata b).1
  rw [ht', hkeys]
  exact hs.sublist (hsub.map _)

/-! ## The entries as a multiset -/

lemma contents_eq {m : ItemTree T V} {t : AvlTree ℕ} {free : List ℕ} (h : IsMultiMap m t free) :
    m.contents = t.inorder.map fun b => ((m.mem b).key, (m.mem b).value) := by
  rw [contents, h.valid.items_eq]

lemma AddedAt.perm {m m' : ItemTree T V} {t : AvlTree ℕ} {free l₁ l₂ : List ℕ} {k : T} {v : V}
    {a : ℕ} (h : IsMultiMap m t free) (ha : AddedAt m m' t l₁ l₂ k v a) :
    m'.contents.Perm ((k, v) :: m.contents) := by
  obtain ⟨t', free', h', ht'⟩ := ha.isMultiMap
  have hdata : ∀ l : List ℕ, (∀ b ∈ l, b ∈ t.inorder) →
      l.map (fun b => ((m'.mem b).key, (m'.mem b).value))
        = l.map fun b => ((m.mem b).key, (m.mem b).value) := by
    intro l hl
    apply List.map_congr_left
    intro b hb
    rw [(ha.other b (hl b hb)).1, (ha.other b (hl b hb)).2]
  rw [contents_eq h, contents_eq h', ha.items, ht', List.map_append, List.map_append, List.map_cons,
    ha.key, ha.value, hdata l₁ (by intro b hb; simp [ha.items, hb]),
    hdata l₂ (by intro b hb; simp [ha.items, hb])]
  exact List.perm_middle

lemma perm_of_added {m m' : ItemTree T V} {t : AvlTree ℕ} {free : List ℕ} {k : T} {v : V} {a : ℕ}
    (h : IsMultiMap m t free) (ha : Added m m' t k v a) :
    m'.contents.Perm ((k, v) :: m.contents) := by
  obtain ⟨l₁, l₂, hadd, -⟩ := ha.addedAt
  exact hadd.perm h

lemma perm_of_remove {m m' : ItemTree T V} {t t' : AvlTree ℕ} {free free' l₁ l₂ : List ℕ} {a : ℕ}
    (h : IsMultiMap m t free) (h' : IsMultiMap m' t' free') (ht : t.inorder = l₁ ++ a :: l₂)
    (ht' : t'.inorder = l₁ ++ l₂) (hdata : SameData m m') :
    m.contents.Perm (((m.mem a).key, (m.mem a).value) :: m'.contents) := by
  have hkeys : (fun b => ((m'.mem b).key, (m'.mem b).value))
      = fun b => ((m.mem b).key, (m.mem b).value) := by
    funext b
    rw [(hdata b).1, (hdata b).2]
  rw [contents_eq h, contents_eq h', ht, ht', List.map_append, List.map_append, List.map_cons,
    hkeys]
  exact List.perm_middle

end MultiMap

end Nstd
