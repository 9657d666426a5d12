import Nstd.Container.ItemTreeRemove
import Nstd.Core.SortedAssoc

/-!
# `Map`

The part of `Map.hpp` that compares keys: the descent of the private `insert`, the insertion with a
hint, and inserting another map.

* `insertFrom_spec` — the descent, from any cell between whose neighbours the key lies.
* `insertAt_spec` — every valid hint leads to the same entries as no hint at all.
-/

namespace Nstd

open BalancedTree
open BalancedTree.AvlTree
open Linked

variable {T V : Type}

namespace ItemTree

/-- Key and value of every item, in the order of the tree. -/
def entries (m : ItemTree T V) (t : AvlTree ℕ) : List (T × V) :=
  t.inorder.map fun a => ((m.mem a).key, (m.mem a).value)

end ItemTree

namespace Map

open ItemTree

variable [LinearOrder T]

/-- The loop of the private `insert(Item** cell, Item* parent, key, value)`. -/
def insertFrom (key : T) (value : V) :
    ℕ → ItemTree T V → Cell → Ptr → Option (ItemTree T V × ℕ)
  | 0, _, _, _ => none
  | fuel + 1, m, cell, parent =>
    match m.read cell with
    | none => m.insertLeaf cell parent key value
    | some position =>
      if key > (m.mem position).key then
        insertFrom key value fuel m (.child position .right) (some position)
      else if key < (m.mem position).key then
        insertFrom key value fuel m (.child position .left) (some position)
      else some (m.setValue position value, position)

/-- `insert(cell, parent, key, value)`. -/
def insertCell (m : ItemTree T V) (cell : Cell) (parent : Ptr) (key : T) (value : V) :
    Option (ItemTree T V × ℕ) :=
  insertFrom key value (m.size + 1) m cell parent

/-- `insert(key, value)`. -/
def insert (m : ItemTree T V) (key : T) (value : V) : Option (ItemTree T V × ℕ) :=
  insertCell m .root none key value

/-- `insert(position, key, value)`. -/
def insertAt (m : ItemTree T V) (position : ℕ) (key : T) (value : V) : Option (ItemTree T V × ℕ) :=
  if position = endItem then
    match (m.mem position).prev with
    | some prev =>
      if key > (m.mem prev).key then insertCell m (.child prev .right) (some prev) key value
      else insert m key value
    | none => insert m key value
  else if key < (m.mem position).key then
    match (m.mem position).prev with
    | none => insertCell m (.child position .left) (some position) key value
    | some prev =>
      if key > (m.mem prev).key then
        insertCell m (.child position .left) (some position) key value
      else insert m key value
  else if key > (m.mem position).key then do
    let next ← (m.mem position).next
    if next = endItem ∨ key < (m.mem next).key then
      insertCell m (.child position .right) (some position) key value
    else insert m key value
  else some (m.setValue position value, position)

/-- The loop of `insert(const Map& other)`; `other` is `none` when a map is inserted into itself,
so that each turn reads what the turns before have left. -/
def insertAll (other : Option (ItemTree T V)) :
    ℕ → ItemTree T V → Ptr → ℕ → Option (ItemTree T V)
  | 0, _, _, _ => none
  | fuel + 1, m, i, it =>
    if i = some endItem then some m
    else do
      let i ← i
      let (m, it) ← insertAt m it ((other.getD m).mem i).key ((other.getD m).mem i).value
      insertAll other fuel m ((other.getD m).mem i).next it

/-- `insert(const Map& other)`. -/
def insertMap (m : ItemTree T V) (other : Option (ItemTree T V)) : Option (ItemTree T V) := do
  match (other.getD m).root with
  | none => some m
  | some _ =>
    let i ← (other.getD m).begin
    let (m, it) ← insert m ((other.getD m).mem i).key ((other.getD m).mem i).value
    insertAll other (other.getD m).size m ((other.getD m).mem i).next it

/-! ## The invariant of a map -/

/-- A valid item tree whose entries are `l`, strictly sorted by key. -/
structure IsMap (m : ItemTree T V) (t : AvlTree ℕ) (free : List ℕ) (l : List (T × V)) : Prop where
  valid : Valid m t free
  entries : m.entries t = l
  sorted : SortedAssoc.Sorted l

lemma key_lt {m : ItemTree T V} {t : AvlTree ℕ} {free : List ℕ} {l : List (T × V)}
    (h : IsMap m t free l) (l₁ l₂ : List ℕ) (ht : t.inorder = l₁ ++ l₂) {a b : ℕ} (ha : a ∈ l₁)
    (hb : b ∈ l₂) : (m.mem a).key < (m.mem b).key := by
  have hs := h.sorted
  rw [← h.entries, entries, ht, List.map_append] at hs
  exact (SortedAssoc.sorted_append.mp hs).2.2 _ (List.mem_map_of_mem ha) _ (List.mem_map_of_mem hb)

/-- What writing an entry comes to.  The iterator `a` is at the entry; every item that was there
is still in its place and has its key. -/
structure Written (m m' : ItemTree T V) (t : AvlTree ℕ) (l : List (T × V)) (k : T) (v : V) (a : ℕ) :
    Prop where
  isMap : ∃ t' free', IsMap m' t' free' (SortedAssoc.insert k v l) ∧ a ∈ t'.inorder
    ∧ (t'.inorder = t.inorder ∨ ∃ l₁ l₂, t.inorder = l₁ ++ l₂ ∧ t'.inorder = l₁ ++ a :: l₂)
  key : (m'.mem a).key = k
  value : (m'.mem a).value = v
  other : ∀ b ∈ t.inorder, (m'.mem b).key = (m.mem b).key

/-- The key is there already. -/
lemma written_setValue {m : ItemTree T V} {t : AvlTree ℕ} {free : List ℕ} {l : List (T × V)} {a : ℕ}
    (h : IsMap m t free l) (ha : a ∈ t.inorder) (v : V) :
    Written m (m.setValue a v) t l (m.mem a).key v a := by
  obtain ⟨l₁, l₂, ht⟩ := List.append_of_mem ha
  have hnd := List.nodup_append.mp (ht ▸ h.valid.nodup)
  have hmem : ∀ b, b ≠ a → (m.setValue a v).mem b = m.mem b := fun b hb => by
    rw [mem_setValue, if_neg hb]
  have hself : (m.setValue a v).mem a = { m.mem a with value := v } := by
    rw [mem_setValue, if_pos rfl]
  have hl : l = l₁.map (fun b => ((m.mem b).key, (m.mem b).value))
      ++ ((m.mem a).key, (m.mem a).value) :: l₂.map fun b => ((m.mem b).key, (m.mem b).value) := by
    rw [← h.entries, entries, ht, List.map_append, List.map_cons]
  have hsorted := h.sorted
  rw [hl] at hsorted
  have hlt := (SortedAssoc.sorted_append.mp hsorted).2.2
  have hins : SortedAssoc.insert (m.mem a).key v (l₁.map (fun b => ((m.mem b).key, (m.mem b).value))
      ++ ((m.mem a).key, (m.mem a).value) :: l₂.map fun b => ((m.mem b).key, (m.mem b).value)) = _ :=
    SortedAssoc.insert_at v (m.mem a).value fun e he => hlt e he _ List.mem_cons_self
  refine ⟨⟨t, free, ⟨h.valid.setValue a v, ?_, ?_⟩, ha, Or.inl rfl⟩, ?_, ?_, fun b _ => ?_⟩
  · rw [hl, hins, entries, ht, List.map_append, List.map_cons, hself]
    congr 1
    · exact List.map_congr_left fun b hb => by
        rw [hmem b (by rintro rfl; exact hnd.2.2 b hb b (by simp) rfl)]
    · congr 1
      exact List.map_congr_left fun b hb => by
        rw [hmem b (by rintro rfl; exact (List.nodup_cons.mp hnd.2.1).1 hb)]
  · exact SortedAssoc.sorted_insert h.sorted _ v
  · rw [hself]
  · rw [hself]
  · rw [mem_setValue]
    split
    · next hb => rw [hb]
    · rfl

/-- The key is new. -/
lemma written_inserted {m m' : ItemTree T V} {c : List (Frame ℕ)} {free : List ℕ}
    {l : List (T × V)} {a : ℕ} {k : T} {v : V} (h : IsMap m (plug c nil) free l)
    (hb : ∀ b ∈ before c, (m.mem b).key < k) (ha : ∀ b ∈ after c, k < (m.mem b).key)
    (hin : Inserted m m' c a k v) : Written m m' (plug c nil) l k v a := by
  obtain ⟨free', hv'⟩ := hin.valid
  have hio : (plug c nil).inorder = before c ++ after c := by rw [inorder_plug]; simp
  have hio' : (retrace c (node nil a 1 0 nil)).inorder = before c ++ a :: after c := by
    rw [inorder_retrace]; simp
  have hl : l = (before c).map (fun b => ((m.mem b).key, (m.mem b).value))
      ++ (after c).map fun b => ((m.mem b).key, (m.mem b).value) := by
    rw [← h.entries, entries, hio, List.map_append]
  have hins : SortedAssoc.insert k v ((before c).map (fun b => ((m.mem b).key, (m.mem b).value))
      ++ (after c).map fun b => ((m.mem b).key, (m.mem b).value)) = _ :=
    SortedAssoc.insert_between v (by simpa using hb) (by simpa using ha)
  have hdata : ∀ b ∈ before c ++ after c, (fun b => ((m'.mem b).key, (m'.mem b).value)) b
      = (fun b => ((m.mem b).key, (m.mem b).value)) b := fun b hb => by
    rw [← hio] at hb
    simp only [(hin.other b hb).1, (hin.other b hb).2]
  refine ⟨⟨_, free', ⟨hv', ?_, ?_⟩, by rw [hio']; simp, Or.inr ⟨before c, after c, hio, hio'⟩⟩,
    hin.key, hin.value, fun b hb => (hin.other b hb).1⟩
  · rw [hl, hins, entries, hio', List.map_append, List.map_cons, hin.key, hin.value]
    congr 1
    · exact List.map_congr_left fun b hb => hdata b (by simp [hb])
    · congr 1
      exact List.map_congr_left fun b hb => hdata b (by simp [hb])
  · exact SortedAssoc.sorted_insert h.sorted k v

/-! ## The descent -/

/-- **The descent.**  Started in any cell whose neighbours on both sides the key lies between, it
ends at the entry of the key or at the null cell where it belongs. -/
theorem insertFrom_spec {k : T} {v : V} {t : AvlTree ℕ} : ∀ {fuel : ℕ} {m : ItemTree T V}
    {c : List (Frame ℕ)} {free : List ℕ} {l : List (T × V)}, IsMap m (plug c t) free l →
    (∀ b ∈ before c, (m.mem b).key < k) → (∀ b ∈ after c, k < (m.mem b).key) →
    t.inorder.length < fuel →
    ∃ m' a, insertFrom k v fuel m (pathCell c) (pathParent c) = some (m', a)
      ∧ Written m m' (plug c t) l k v a := by
  induction t with
  | nil =>
    rintro (_ | fuel) m c free l h hb ha hf
    · exact absurd hf (Nat.not_lt_zero _)
    · obtain ⟨m', a, hrun, hin⟩ := h.valid.insertLeaf k v
      rw [insertFrom, (represents_plug.mpr h.valid.links).read, top_nil]
      exact ⟨m', a, hrun, written_inserted h hb ha hin⟩
  | node tl b ht s tr ihl ihr =>
    rintro (_ | fuel) m c free l h hb ha hf
    · exact absurd hf (Nat.not_lt_zero _)
    · have hio : (plug c (node tl b ht s tr)).inorder
          = (before c ++ tl.inorder) ++ b :: (tr.inorder ++ after c) := by
        rw [inorder_plug, inorder_node]; simp
      simp only [inorder_node, List.length_append, List.length_cons] at hf
      rw [insertFrom, (represents_plug.mpr h.valid.links).read, top_node]
      simp only
      split_ifs with hgt hlt
      · -- to the right
        refine ihr (c := ⟨.right, b, ht, s, tl⟩ :: c) h (fun w hw => ?_) ha (by omega)
        simp only [before, List.mem_append, List.mem_singleton] at hw
        rcases hw with hw | hw | rfl
        · exact hb w hw
        · exact (key_lt h _ _ hio (List.mem_append_right _ hw) (by simp)).trans hgt
        · exact hgt
      · -- to the left
        refine ihl (c := ⟨.left, b, ht, s, tr⟩ :: c) h (by simpa [before] using hb)
          (fun w hw => ?_) (by omega)
        simp only [after, List.cons_append, List.mem_cons, List.mem_append] at hw
        rcases hw with rfl | hw | hw
        · exact hlt
        · exact hlt.trans (key_lt h (before c ++ tl.inorder ++ [b])
            (tr.inorder ++ after c) (by rw [hio]; simp) (by simp) (by simp [hw]))
        · exact ha w hw
      · -- found
        obtain rfl : k = (m.mem b).key := le_antisymm (not_lt.mp hgt) (not_lt.mp hlt)
        exact ⟨_, b, rfl, written_setValue h (by rw [hio]; simp) v⟩

/-- Inserting without a hint. -/
theorem insert_spec {m : ItemTree T V} {t : AvlTree ℕ} {free : List ℕ} {l : List (T × V)}
    (h : IsMap m t free l) (k : T) (v : V) :
    ∃ m' a, insert m k v = some (m', a) ∧ Written m m' t l k v a :=
  insertFrom_spec (c := []) h (by simp) (by simp) (h.valid.size ▸ Nat.lt_succ_self _)

/-! ## Hints -/

/-- Going in on side `d` of an item, when the key lies between it and its neighbour there. -/
lemma insertCell_spec {m : ItemTree T V} {t : AvlTree ℕ} {free l₁ l₂ : List ℕ} {l : List (T × V)}
    {k : T} {a : ℕ} (h : IsMap m t free l) (ht : t.inorder = l₁ ++ a :: l₂) (v : V) (d : Side)
    (hb : ∀ b ∈ l₁, (m.mem b).key < k) (ha : ∀ b ∈ l₂, k < (m.mem b).key)
    (hd : match d with | .left => k < (m.mem a).key | .right => (m.mem a).key < k) :
    ∃ m' b, insertCell m (.child a d) (some a) k v = some (m', b) ∧ Written m m' t l k v b := by
  obtain ⟨c, tl, tr, ht', s, rfl, rfl, rfl⟩ := h.valid.focus ht
  have hsize : (plug c (node tl a ht' s tr)).inorder.length < m.size + 1 :=
    h.valid.size ▸ Nat.lt_succ_self _
  rw [ht, List.length_append, List.length_append, List.length_cons, List.length_append] at hsize
  cases d with
  | left =>
    refine insertFrom_spec (c := ⟨.left, a, ht', s, tr⟩ :: c) h
      (fun w hw => hb w (List.mem_append_left _ (by simpa [before] using hw))) (fun w hw => ?_)
      (by omega)
    rcases List.mem_cons.mp (show w ∈ a :: (tr.inorder ++ after c) from hw) with rfl | hw
    · exact hd
    · exact ha w hw
  | right =>
    refine insertFrom_spec (c := ⟨.right, a, ht', s, tl⟩ :: c) h (fun w hw => ?_)
      (fun w hw => ha w (List.mem_append_right _ (by simpa [after] using hw))) (by omega)
    rw [show before (⟨.right, a, ht', s, tl⟩ :: c) = before c ++ (tl.inorder ++ [a]) from rfl,
      ← List.append_assoc, List.mem_append, List.mem_singleton] at hw
    rcases hw with hw | rfl
    · exact hb w hw
    · exact hd

/-- Above the last of some items the key is above all of them. -/
lemma lt_of_getLast {m : ItemTree T V} {t : AvlTree ℕ} {free l₁ l₂ : List ℕ} {l : List (T × V)}
    {k : T} {p : ℕ} (h : IsMap m t free l) (ht : t.inorder = l₁ ++ l₂) (hp : l₁.getLast? = some p)
    (hk : (m.mem p).key < k) : ∀ b ∈ l₁, (m.mem b).key < k := by
  obtain ⟨l₀, rfl⟩ := List.getLast?_eq_some_iff.mp hp
  intro b hb
  rcases List.mem_append.mp hb with hb | hb
  · exact (key_lt h l₀ (p :: l₂) (by rw [ht]; simp) hb (by simp)).trans hk
  · rwa [List.mem_singleton.mp hb]

/-- **Every hint that is an iterator of the map is as good as none.** -/
theorem insertAt_spec {m : ItemTree T V} {t : AvlTree ℕ} {free : List ℕ} {l : List (T × V)}
    (h : IsMap m t free l) {position : ℕ} (hp : position ∈ t.inorder ∨ position = endItem)
    (k : T) (v : V) :
    ∃ m' a, insertAt m position k v = some (m', a) ∧ Written m m' t l k v a := by
  rw [insertAt]
  by_cases hend : position = endItem
  · -- the end, after the last item
    subst hend
    rw [if_pos rfl, h.valid.prev_eq _ _ rfl]
    cases hlast : t.inorder.getLast? with
    | none => exact insert_spec h k v
    | some p =>
      obtain ⟨l₀, ht⟩ := List.getLast?_eq_some_iff.mp hlast
      simp only
      split_ifs with hgt
      · refine insertCell_spec h ht v .right (fun b hb => ?_) (by simp) hgt
        exact lt_of_getLast h (by rw [List.append_nil]) hlast hgt b (by rw [ht]; simp [hb])
      · exact insert_spec h k v
  · obtain ⟨l₁, l₂, ht⟩ := List.append_of_mem (hp.resolve_right hend)
    have hpos : ∀ b ∈ l₂, (m.mem position).key < (m.mem b).key := fun b hb =>
      key_lt h (l₁ ++ [position]) l₂ (by rw [ht]; simp) (by simp) hb
    have hpos' : ∀ b ∈ l₁, (m.mem b).key < (m.mem position).key := fun b hb =>
      key_lt h _ _ ht hb (by simp)
    rw [if_neg hend]
    split_ifs with hlt hgt
    · -- before the item
      rw [h.valid.prev_eq l₁ (l₂ ++ [endItem]) (by rw [ht]; simp)]
      have ha : ∀ b ∈ l₂, k < (m.mem b).key := fun b hb => hlt.trans (hpos b hb)
      cases hlast : l₁.getLast? with
      | none =>
        obtain rfl := List.getLast?_eq_none_iff.mp hlast
        exact insertCell_spec h ht v .left (by simp) ha hlt
      | some p =>
        simp only
        split_ifs with hgt
        · exact insertCell_spec h ht v .left (lt_of_getLast h ht hlast hgt) ha hlt
        · exact insert_spec h k v
    · -- after the item
      obtain ⟨y, l₀, hy⟩ : ∃ y l₀, l₂ ++ [endItem] = y :: l₀ := by cases l₂ <;> simp
      rw [h.valid.next_eq l₁ l₀ (y := y) (by rw [ht, ← hy]; simp)]
      simp only [Option.bind_eq_bind, Option.bind_some]
      split_ifs with hnext
      · refine insertCell_spec h ht v .right (fun b hb => (hpos' b hb).trans hgt) (fun b hb => ?_) hgt
        cases l₂ with
        | nil => simp at hb
        | cons z l₂ =>
          obtain ⟨rfl, -⟩ := List.cons.inj hy
          have hz : k < (m.mem z).key := hnext.resolve_left (h.valid.ne_endItem (Or.inl (by
            rw [ht]; simp)))
          rcases List.mem_cons.mp hb with rfl | hb
          · exact hz
          · exact hz.trans (key_lt h (l₁ ++ [position, z]) l₂ (by rw [ht]; simp)
              (by simp) hb)
      · exact insert_spec h k v
    · -- at the item
      obtain rfl : k = (m.mem position).key := le_antisymm (not_lt.mp hgt) (not_lt.mp hlt)
      exact ⟨_, position, rfl, written_setValue h (by rw [ht]; simp) v⟩

/-! ## Inserting a map -/

/-- Every item is still in the tree and has its key. -/
def Kept (m m' : ItemTree T V) (t t' : AvlTree ℕ) : Prop :=
  ∀ b ∈ t.inorder, b ∈ t'.inorder ∧ (m'.mem b).key = (m.mem b).key

omit [LinearOrder T] in
lemma Kept.trans {m₁ m₂ m₃ : ItemTree T V} {t₁ t₂ t₃ : AvlTree ℕ} (h : Kept m₁ m₂ t₁ t₂)
    (h' : Kept m₂ m₃ t₂ t₃) : Kept m₁ m₃ t₁ t₃ := fun b hb =>
  ⟨(h' b (h b hb).1).1, (h' b (h b hb).1).2.trans (h b hb).2⟩

lemma Written.kept {m m' : ItemTree T V} {t : AvlTree ℕ} {l : List (T × V)} {k : T} {v : V} {a : ℕ}
    (h : Written m m' t l k v a) :
    ∃ t' free', IsMap m' t' free' (SortedAssoc.insert k v l) ∧ a ∈ t'.inorder ∧ Kept m m' t t' := by
  obtain ⟨t', free', hm, ha, hio⟩ := h.isMap
  refine ⟨t', free', hm, ha, fun b hb => ⟨?_, h.other b hb⟩⟩
  rcases hio with hio | ⟨l₁, l₂, hio, hio'⟩
  · rwa [hio]
  · rw [hio, List.mem_append] at hb
    rw [hio', List.mem_append, List.mem_cons]
    exact hb.imp_right Or.inr

/-- The loop over the items of another map. -/
lemma insertAll_spec {o : ItemTree T V} {u : AvlTree ℕ} {freeo : List ℕ} (ho : Valid o u freeo) :
    ∀ (rest : List ℕ) {p : List ℕ} {fuel : ℕ} {m : ItemTree T V} {t : AvlTree ℕ} {free : List ℕ}
      {l : List (T × V)} {it : ℕ}, IsMap m t free l → it ∈ t.inorder →
      u.inorder = p ++ rest → rest.length < fuel →
      ∃ m' t' free', insertAll (some o) fuel m (rest ++ [endItem]).head? it = some m'
        ∧ IsMap m' t' free' (SortedAssoc.insertAll l (rest.map fun b =>
            ((o.mem b).key, (o.mem b).value))) ∧ Kept m m' t t' := by
  intro rest
  induction rest with
  | nil =>
    rintro p (_ | fuel) m t free l it h - - hf
    · exact absurd hf (Nat.not_lt_zero _)
    · exact ⟨m, t, free, by simp [insertAll], h, fun b hb => ⟨hb, rfl⟩⟩
  | cons i rest ih =>
    rintro p (_ | fuel) m t free l it h hit hu hf
    · exact absurd hf (Nat.not_lt_zero _)
    · have hi : i ≠ endItem := ho.ne_endItem (Or.inl (by rw [hu]; simp))
      obtain ⟨m₁, a, hrun, hw⟩ := insertAt_spec h (Or.inl hit) (o.mem i).key (o.mem i).value
      obtain ⟨t₁, free₁, h₁, ha, hk₁⟩ := hw.kept
      have hnext : (o.mem i).next = (rest ++ [endItem]).head? :=
        ho.next_head hu
      obtain ⟨m₂, t₂, free₂, hrun₂, h₂, hk₂⟩ := ih (p := p ++ [i]) h₁ ha
        (by rw [hu]; simp) (Nat.lt_of_succ_lt_succ hf)
      refine ⟨m₂, t₂, free₂, ?_, h₂, hk₁.trans hk₂⟩
      rw [insertAll, List.cons_append, List.head?_cons, if_neg (by simpa using hi)]
      simp only [Option.bind_eq_bind, Option.bind_some, Option.getD_some, hrun, hnext, hrun₂]

/-- **Inserting another map** writes all its entries. -/
theorem insertMap_spec {m o : ItemTree T V} {t u : AvlTree ℕ} {free freeo : List ℕ}
    {l lo : List (T × V)} (h : IsMap m t free l) (ho : IsMap o u freeo lo) :
    ∃ m' t' free', insertMap m (some o) = some m'
      ∧ IsMap m' t' free' (SortedAssoc.insertAll l lo) ∧ Kept m m' t t' := by
  have hroot : o.root = u.top := ho.valid.links.path
  rw [insertMap, Option.getD_some, hroot]
  rw [← ho.entries, entries]
  cases hu : u.inorder with
  | nil =>
    have htop : u.top = none := by rw [inorder_eq_nil.mp hu, top_nil]
    rw [htop]
    exact ⟨m, t, free, rfl, h, fun b hb => ⟨hb, rfl⟩⟩
  | cons i rest =>
    obtain ⟨b, hb⟩ := exists_top (t := u) (a := i) (by rw [hu]; simp)
    have hbegin : o.begin = some i := ho.valid.begin_eq (by rw [hu]; rfl)
    obtain ⟨m₁, a, hrun, hw⟩ := insert_spec h (o.mem i).key (o.mem i).value
    obtain ⟨t₁, free₁, h₁, ha, hk₁⟩ := hw.kept
    have hnext : (o.mem i).next = (rest ++ [endItem]).head? :=
      ho.valid.next_head (show u.inorder = [] ++ i :: rest from hu)
    have hsize : o.size = rest.length + 1 := by rw [ho.valid.size, hu]; rfl
    obtain ⟨m₂, t₂, free₂, hrun₂, h₂, hk₂⟩ := insertAll_spec ho.valid rest (p := [i]) h₁ ha
      hu (hsize ▸ Nat.lt_succ_self _ : rest.length < o.size)
    refine ⟨m₂, t₂, free₂, ?_, h₂, hk₁.trans hk₂⟩
    simp only [hb, hbegin, Option.bind_eq_bind, Option.bind_some, Option.getD_some, hrun, hnext,
      hrun₂]

/-- Writing an entry that is there leaves the items as they are. -/
lemma Written.same {m m' : ItemTree T V} {t : AvlTree ℕ} {free : List ℕ} {l : List (T × V)} {k : T}
    {v : V} {a : ℕ} (h : IsMap m t free l) (hw : Written m m' t l k v a) (hmem : (k, v) ∈ l) :
    ∃ t' free', IsMap m' t' free' l ∧ a ∈ t'.inorder ∧ t'.inorder = t.inorder := by
  obtain ⟨t', free', hm, ha, hio⟩ := hw.isMap
  rw [SortedAssoc.insert_of_mem h.sorted hmem] at hm
  refine ⟨t', free', hm, ha, hio.resolve_right ?_⟩
  rintro ⟨l₁, l₂, h₁, h₂⟩
  have e₁ := congrArg List.length h.entries
  have e₂ := congrArg List.length hm.entries
  rw [entries, List.length_map, h₁, List.length_append] at e₁
  rw [entries, List.length_map, h₂, List.length_append, List.length_cons] at e₂
  omega

/-- What an item of the map holds is an entry. -/
lemma mem_entries {m : ItemTree T V} {t : AvlTree ℕ} {free : List ℕ} {l : List (T × V)}
    (h : IsMap m t free l) {i : ℕ} (hi : i ∈ t.inorder) : ((m.mem i).key, (m.mem i).value) ∈ l := by
  rw [← h.entries, entries]
  exact List.mem_map_of_mem (f := fun b => ((m.mem b).key, (m.mem b).value)) hi

/-- The loop over the map's own items. -/
lemma insertAll_self_spec {l : List (T × V)} : ∀ (rest : List ℕ) {p : List ℕ} {fuel : ℕ}
    {m : ItemTree T V} {t : AvlTree ℕ} {free : List ℕ} {it : ℕ}, IsMap m t free l → it ∈ t.inorder →
    t.inorder = p ++ rest → rest.length < fuel →
    ∃ m' t' free', insertAll none fuel m (rest ++ [endItem]).head? it = some m'
      ∧ IsMap m' t' free' l ∧ Kept m m' t t' := by
  intro rest
  induction rest with
  | nil =>
    rintro p (_ | fuel) m t free it h - - hf
    · exact absurd hf (Nat.not_lt_zero _)
    · exact ⟨m, t, free, by simp [insertAll], h, fun b hb => ⟨hb, rfl⟩⟩
  | cons i rest ih =>
    rintro p (_ | fuel) m t free it h hit hu hf
    · exact absurd hf (Nat.not_lt_zero _)
    · have hi : i ≠ endItem := h.valid.ne_endItem (Or.inl (by rw [hu]; simp))
      obtain ⟨m₁, a, hrun, hw⟩ := insertAt_spec h (Or.inl hit) (m.mem i).key (m.mem i).value
      have hmem := mem_entries h (i := i) (by rw [hu]; simp)
      obtain ⟨t₁, free₁, h₁, ha, hio⟩ := hw.same h hmem
      have hnext : (m₁.mem i).next = (rest ++ [endItem]).head? :=
        h₁.valid.next_head (hio.trans hu)
      obtain ⟨m₂, t₂, free₂, hrun₂, h₂, hk₂⟩ := ih (p := p ++ [i]) h₁ ha
        (by rw [hio, hu]; simp) (Nat.lt_of_succ_lt_succ hf)
      refine ⟨m₂, t₂, free₂, ?_, h₂, Kept.trans (fun b hb => ⟨by rwa [hio], hw.other b hb⟩) hk₂⟩
      rw [insertAll, List.cons_append, List.head?_cons, if_neg (by simpa using hi)]
      simp only [Option.bind_eq_bind, Option.bind_some, Option.getD_none, hrun, hnext, hrun₂]

/-- Inserting a map into itself changes no entry. -/
theorem insertMap_self_spec {m : ItemTree T V} {t : AvlTree ℕ} {free : List ℕ} {l : List (T × V)}
    (h : IsMap m t free l) :
    ∃ m' t' free', insertMap m none = some m' ∧ IsMap m' t' free' l ∧ Kept m m' t t' := by
  have hroot : m.root = t.top := h.valid.links.path
  rw [insertMap, Option.getD_none, hroot]
  cases hu : t.inorder with
  | nil =>
    have htop : t.top = none := by rw [inorder_eq_nil.mp hu, top_nil]
    rw [htop]
    exact ⟨m, t, free, rfl, h, fun b hb => ⟨hb, rfl⟩⟩
  | cons i rest =>
    obtain ⟨b, hb⟩ := exists_top (t := t) (a := i) (by rw [hu]; simp)
    have hbegin : m.begin = some i := h.valid.begin_eq (by rw [hu]; rfl)
    obtain ⟨m₁, a, hrun, hw⟩ := insert_spec h (m.mem i).key (m.mem i).value
    have hmem := mem_entries h (i := i) (by rw [hu]; simp)
    obtain ⟨t₁, free₁, h₁, ha, hio⟩ := hw.same h hmem
    have hnext : (m₁.mem i).next = (rest ++ [endItem]).head? :=
      h₁.valid.next_head (show t₁.inorder = [] ++ i :: rest from hio.trans hu)
    have hsize : m₁.size = rest.length + 1 := by rw [h₁.valid.size, hio, hu]; rfl
    obtain ⟨m₂, t₂, free₂, hrun₂, h₂, hk₂⟩ := insertAll_self_spec rest (p := [i]) h₁ ha
      (by rw [hio]; exact hu) (hsize ▸ Nat.lt_succ_self _ : rest.length < m₁.size)
    refine ⟨m₂, t₂, free₂, ?_, h₂, Kept.trans (fun b hb => ⟨by rwa [hio], hw.other b hb⟩) hk₂⟩
    simp only [hb, hbegin, Option.bind_eq_bind, Option.bind_some, Option.getD_none, hrun, hnext,
      hrun₂]

end Map

end Nstd
