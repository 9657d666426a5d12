import Nstd.Container.ItemTreeLinks
import Nstd.Core.Chain
import Mathlib.Data.List.Range

/-!
# The invariant of an item tree, and inserting an item

`Valid m t free` is everything the code relies on: the links represent the balanced tree `t`, the
chain from `begin` to `endItem` runs through `t` in order, the size is the number of items, and
the free chain together with the tree is exactly the storage of the blocks.  No comparison of keys
occurs; what a container adds is an order on `t.inorder`.

`Valid.insertLeaf` is the whole of an insertion once its place in the tree is known.
-/

namespace Nstd

open BalancedTree
open BalancedTree.AvlTree
open Linked

variable {T V : Type}

namespace ItemTree

/-- The item after an item, `begin` being what comes after nothing. -/
def nextOf (m : ItemTree T V) : Ptr → Ptr
  | none => m.begin
  | some a => (m.mem a).next

/-- The item before an item. -/
def prevOf (m : ItemTree T V) (a : ℕ) : Ptr := (m.mem a).prev

/-- The invariant of an item tree with items `t` and free chain `free`. -/
structure Valid (m : ItemTree T V) (t : AvlTree ℕ) (free : List ℕ) : Prop where
  links : Represents m [] t
  balanced : t.Balanced
  chain : Chain m.nextOf m.prevOf none (t.inorder ++ [endItem])
  size : m.size = t.inorder.length
  freeChain : Stack m.prevOf m.freeItem free
  slots : (t.inorder ++ free).Perm (List.range' 1 (4 * m.blocks))

theorem valid_empty [Inhabited T] [Inhabited V] : Valid (empty : ItemTree T V) nil [] where
  links := ⟨rfl, trivial, by simp [labels]⟩
  balanced := trivial
  chain := ⟨rfl, rfl, trivial⟩
  size := rfl
  freeChain := rfl
  slots := by simp [empty]

namespace Valid

variable {m : ItemTree T V} {t : AvlTree ℕ} {free : List ℕ}

lemma slots_nodup (hv : Valid m t free) : (t.inorder ++ free).Nodup :=
  hv.slots.nodup_iff.mpr List.nodup_range'

lemma nodup (hv : Valid m t free) : t.inorder.Nodup := (List.nodup_append.mp hv.slots_nodup).1

/-- No item and no free slot is the sentinel. -/
lemma ne_endItem (hv : Valid m t free) {a : ℕ} (ha : a ∈ t.inorder ∨ a ∈ free) : a ≠ endItem := by
  have h := hv.slots.mem_iff.mp (List.mem_append.mpr ha)
  rw [List.mem_range'_1] at h
  exact Nat.pos_iff_ne_zero.mp h.1

lemma not_mem_free (hv : Valid m t free) {a : ℕ} (ha : a ∈ t.inorder) : a ∉ free := fun hf =>
  (List.nodup_append.mp hv.slots_nodup).2.2 a ha a hf rfl

/-- The nodes of the chain, sentinel included, are all different. -/
lemma chain_nodup (hv : Valid m t free) : ((none : Ptr) :: (t.inorder ++ [endItem]).map some).Nodup := by
  rw [List.nodup_cons]
  refine ⟨by simp, List.Nodup.map (Option.some_injective ℕ) ?_⟩
  rw [List.nodup_append]
  refine ⟨hv.nodup, by simp, fun a ha b hb => ?_⟩
  rw [List.mem_singleton.mp hb]
  exact hv.ne_endItem (Or.inl ha)

/-- An item and the items on both sides of it, as a path and a node. -/
lemma focus (hv : Valid m t free) {l₁ l₂ : List ℕ} {a : ℕ} (ht : t.inorder = l₁ ++ a :: l₂) :
    ∃ c l r h s, t = plug c (node l a h s r) ∧ l₁ = before c ++ l.inorder
      ∧ l₂ = r.inorder ++ after c := by
  obtain ⟨c, l, r, h, s, rfl⟩ := exists_plug_of_mem (t := t) (a := a) (by rw [ht]; simp)
  have hnd := List.nodup_append.mp (ht ▸ hv.nodup)
  have h₁ : a ∉ l₁ := fun hmem => hnd.2.2 a hmem a (by simp) rfl
  have h₂ : a ∉ l₂ := (List.nodup_cons.mp hnd.2.1).1
  have heq : l₁ ++ a :: l₂ = before c ++ l.inorder ++ a :: (r.inorder ++ after c) := by
    rw [← ht, inorder_plug, inorder_node]; simp
  obtain ⟨rfl, -, rfl⟩ := (List.append_cons_inj_of_notMem h₁ h₂).mp heq
  exact ⟨c, l, r, h, s, rfl, rfl, rfl⟩

lemma next_eq (hv : Valid m t free) (l₁ l₂ : List ℕ) {a y : ℕ}
    (h : t.inorder ++ [endItem] = l₁ ++ a :: y :: l₂) : (m.mem a).next = some y := by
  have hch := hv.chain
  rw [h] at hch
  exact hch.next_eq

/-- The item after an item, or the sentinel. -/
lemma next_head (hv : Valid m t free) {l₁ l₂ : List ℕ} {a : ℕ} (ht : t.inorder = l₁ ++ a :: l₂) :
    (m.mem a).next = (l₂ ++ [endItem]).head? := by
  obtain ⟨y, l, hy⟩ : ∃ y l, l₂ ++ [endItem] = y :: l := by cases l₂ <;> simp
  rw [hv.next_eq l₁ l (y := y) (by rw [ht, ← hy]; simp), hy]
  rfl

lemma root_eq (hv : Valid m t free) : m.root = t.top := hv.links.path

lemma prev_eq (hv : Valid m t free) (l₁ l₂ : List ℕ) {a : ℕ}
    (h : t.inorder ++ [endItem] = l₁ ++ a :: l₂) : (m.mem a).prev = l₁.getLast? := by
  have hch := hv.chain
  rw [h] at hch
  rw [← endOf_none]
  exact hch.prev_eq

lemma begin_eq (hv : Valid m t free) {l : List ℕ} {y : ℕ} (h : t.inorder ++ [endItem] = y :: l) :
    m.begin = some y := by
  have hch := hv.chain
  rw [h] at hch
  exact hch.1

end Valid

/-! ## The chain -/

/-- Only places in the chain changed: keys, values and links are as before. -/
structure OnlyChain (m m' : ItemTree T V) : Prop where
  key : ∀ a, (m'.mem a).key = (m.mem a).key
  value : ∀ a, (m'.mem a).value = (m.mem a).value
  links : ∀ a, (m'.mem a).links = (m.mem a).links
  root : m'.root = m.root
  size : m'.size = m.size
  freeItem : m'.freeItem = m.freeItem
  blocks : m'.blocks = m.blocks

lemma OnlyChain.trans {m₁ m₂ m₃ : ItemTree T V} (h : OnlyChain m₁ m₂) (h' : OnlyChain m₂ m₃) :
    OnlyChain m₁ m₃ :=
  ⟨fun a => (h'.key a).trans (h.key a), fun a => (h'.value a).trans (h.value a),
    fun a => (h'.links a).trans (h.links a), h'.root.trans h.root, h'.size.trans h.size,
    h'.freeItem.trans h.freeItem, h'.blocks.trans h.blocks⟩

lemma onlyChain_setNext (m : ItemTree T V) (a : ℕ) (p : Ptr) : OnlyChain m (m.setNext a p) := by
  refine ⟨fun b => ?_, fun b => ?_, fun b => ?_, rfl, rfl, rfl, rfl⟩ <;>
    rw [setNext, mem_modify] <;> split <;> simp_all [Item.links]

lemma onlyChain_setPrev (m : ItemTree T V) (a : ℕ) (p : Ptr) : OnlyChain m (m.setPrev a p) := by
  refine ⟨fun b => ?_, fun b => ?_, fun b => ?_, rfl, rfl, rfl, rfl⟩ <;>
    rw [setPrev, mem_modify] <;> split <;> simp_all [Item.links]

lemma onlyChain_setBegin (m : ItemTree T V) (p : Ptr) : OnlyChain m (m.setBegin p) :=
  ⟨fun _ => rfl, fun _ => rfl, fun _ => rfl, rfl, rfl, rfl, rfl⟩

lemma OnlyChain.represents {m m' : ItemTree T V} (h : OnlyChain m m') {c : List (Frame ℕ)}
    {t : AvlTree ℕ} (hm : Represents m c t) : Represents m' c t :=
  ⟨hm.path.congr h.root fun a _ => h.links a, hm.sub.congr fun a _ => h.links a, hm.nodup⟩

lemma OnlyLinks.nextOf {m m' : ItemTree T V} (h : OnlyLinks m m') : m'.nextOf = m.nextOf := by
  funext z
  cases z with
  | none => exact h.begin
  | some a => exact h.next a

lemma OnlyLinks.prevOf {m m' : ItemTree T V} (h : OnlyLinks m m') : m'.prevOf = m.prevOf :=
  funext h.prev

@[simp] lemma nextOf_setBegin (m : ItemTree T V) (p z : Ptr) :
    (m.setBegin p).nextOf z = if z = none then p else m.nextOf z := by
  cases z <;> rfl

@[simp] lemma prevOf_setBegin (m : ItemTree T V) (p : Ptr) (b : ℕ) :
    (m.setBegin p).prevOf b = m.prevOf b := rfl

@[simp] lemma nextOf_setNext (m : ItemTree T V) (a : ℕ) (p z : Ptr) :
    (m.setNext a p).nextOf z = if z = some a then p else m.nextOf z := by
  cases z with
  | none => rfl
  | some b =>
    simp only [nextOf, setNext, mem_modify, Option.some.injEq]
    split <;> simp_all

@[simp] lemma nextOf_setPrev (m : ItemTree T V) (a : ℕ) (p z : Ptr) :
    (m.setPrev a p).nextOf z = m.nextOf z := by
  cases z with
  | none => rfl
  | some b =>
    simp only [nextOf, setPrev, mem_modify]
    split <;> simp_all

@[simp] lemma prevOf_setNext (m : ItemTree T V) (a b : ℕ) (p : Ptr) :
    (m.setNext a p).prevOf b = m.prevOf b := by
  simp only [prevOf, setNext, mem_modify]
  split <;> simp_all

@[simp] lemma prevOf_setPrev (m : ItemTree T V) (a b : ℕ) (p : Ptr) :
    (m.setPrev a p).prevOf b = if b = a then p else m.prevOf b := by
  simp only [prevOf, setPrev, mem_modify]
  split <;> simp_all

lemma onlyChain_linkBefore (m : ItemTree T V) (a y : ℕ) : OnlyChain m (m.linkBefore a y) := by
  unfold linkBefore
  refine .trans ?_ (onlyChain_setPrev _ _ _)
  refine .trans ?_ (onlyChain_setNext _ _ _)
  refine (onlyChain_setPrev m a (m.mem y).prev).trans ?_
  cases (m.mem y).prev with
  | none => exact onlyChain_setBegin _ _
  | some p => exact onlyChain_setNext _ _ _

/-- What `linkBefore` does to `next`. -/
lemma nextOf_linkBefore (m : ItemTree T V) (a y : ℕ) (z : Ptr) :
    (m.linkBefore a y).nextOf z
      = if z = some a then some y else if z = m.prevOf y then some a else m.nextOf z := by
  rw [linkBefore, prevOf]
  cases (m.mem y).prev <;> simp

/-- What `linkBefore` does to `prev`. -/
lemma prevOf_linkBefore (m : ItemTree T V) (a y b : ℕ) :
    (m.linkBefore a y).prevOf b
      = if b = y then some a else if b = a then m.prevOf y else m.prevOf b := by
  rw [linkBefore, show m.prevOf y = (m.mem y).prev from rfl]
  cases (m.mem y).prev <;> simp

/-! ## Iterating -/

/-- The items a loop `for(i = p; i != end; i = i->next)` comes by. -/
def itemsFrom (m : ItemTree T V) : ℕ → Ptr → List ℕ
  | 0, _ => []
  | _ + 1, none => []
  | n + 1, some a => if a = endItem then [] else a :: m.itemsFrom n (m.mem a).next

/-- The items from `begin` to `end`. -/
def items (m : ItemTree T V) : List ℕ := m.itemsFrom m.size m.begin

lemma itemsFrom_eq {m : ItemTree T V} {pf : ℕ → Ptr} {l : List ℕ} {x : Ptr} {n : ℕ}
    (hch : Chain m.nextOf pf x (l ++ [endItem])) (h0 : endItem ∉ l) (hn : l.length ≤ n) :
    m.itemsFrom n (m.nextOf x) = l := by
  induction l generalizing x n with
  | nil =>
    rw [hch.1]
    cases n with
    | zero => rfl
    | succ n => rw [itemsFrom, if_pos rfl]
  | cons a l ih =>
    obtain ⟨n, rfl⟩ : ∃ k, n = k + 1 := ⟨n - 1, by simp at hn; omega⟩
    rw [hch.1, itemsFrom, if_neg (by rintro rfl; exact h0 (by simp))]
    rw [show (m.mem a).next = m.nextOf (some a) from rfl, ih hch.2.2 (fun h => h0 (by simp [h]))
      (Nat.le_of_succ_le_succ hn)]

/-- Iterating over a tree runs through it in order. -/
theorem Valid.items_eq {m : ItemTree T V} {t : AvlTree ℕ} {free : List ℕ} (hv : Valid m t free) :
    m.items = t.inorder :=
  itemsFrom_eq hv.chain (fun h => hv.ne_endItem (Or.inl h) rfl) hv.size.ge

/-- The entries a loop over the container reads. -/
def contents (m : ItemTree T V) : List (T × V) :=
  m.items.map fun a => ((m.mem a).key, (m.mem a).value)

/-! ## Writing a value -/

lemma mem_setValue (m : ItemTree T V) (a b : ℕ) (v : V) :
    (m.setValue a v).mem b = if b = a then { m.mem a with value := v } else m.mem b :=
  mem_modify _ _ _ _

/-- Assigning a value moves nothing. -/
theorem Valid.setValue {m : ItemTree T V} {t : AvlTree ℕ} {free : List ℕ} (hv : Valid m t free) (a : ℕ)
    (v : V) : Valid (m.setValue a v) t free := by
  have hl : ∀ b, ((m.setValue a v).mem b).links = (m.mem b).links
      ∧ ((m.setValue a v).mem b).next = (m.mem b).next
      ∧ ((m.setValue a v).mem b).prev = (m.mem b).prev := fun b => by
    rw [mem_setValue]
    split
    · next h => subst h; exact ⟨rfl, rfl, rfl⟩
    · exact ⟨rfl, rfl, rfl⟩
  have hn : (m.setValue a v).nextOf = m.nextOf := by
    funext z
    cases z with
    | none => rfl
    | some b => exact (hl b).2.1
  have hp : (m.setValue a v).prevOf = m.prevOf := funext fun b => (hl b).2.2
  refine ⟨⟨hv.links.path.congr rfl fun b _ => (hl b).1, hv.links.sub.congr fun b _ => (hl b).1,
    hv.links.nodup⟩, hv.balanced, ?_, hv.size, ?_, hv.slots⟩
  · rw [hn, hp]; exact hv.chain
  · rw [hp]; exact hv.freeChain

/-! ## Allocation -/

/-- The slot an insertion gets: it is fresh, and taking it out leaves a free chain that together
with the tree and the slot is exactly the storage. -/
lemma Valid.allocItem {m : ItemTree T V} {t : AvlTree ℕ} {free : List ℕ} (hv : Valid m t free) :
    ∃ m₁ a free₁, m.allocItem = (m₁, a) ∧ Stack m₁.prevOf (m₁.prevOf a) free₁
      ∧ (t.inorder ++ a :: free₁).Perm (List.range' 1 (4 * m₁.blocks))
      ∧ (∀ b, b ∈ t.inorder ∨ b = endItem → m₁.mem b = m.mem b)
      ∧ m₁.root = m.root ∧ m₁.begin = m.begin ∧ m₁.size = m.size := by
  have hfree := hv.freeChain
  cases hf : m.freeItem with
  | some a =>
    rw [hf, stack_some] at hfree
    obtain ⟨free₁, rfl, hst⟩ := hfree
    exact ⟨m, a, free₁, by rw [ItemTree.allocItem, hf], hst, hv.slots, fun _ _ => rfl, rfl, rfl, rfl⟩
  | none =>
    rw [hf, stack_none] at hfree
    subst hfree
    set i := 4 * m.blocks + 1 with hi
    have hold : ∀ b, b ∈ t.inorder ∨ b = endItem → b < i := by
      rintro b (hb | rfl)
      · have := hv.slots.mem_iff.mp (List.mem_append_left _ hb)
        rw [List.mem_range'_1] at this
        omega
      · exact Nat.succ_pos _
    refine ⟨m.addBlock, i + 3, [i + 2, i + 1, i], by rw [ItemTree.allocItem, hf], ?_, ?_, ?_, rfl,
      rfl, rfl⟩
    · simp [Stack, prevOf, addBlock, setPrev, hi]
    · have hr : List.range' 1 (4 * (m.blocks + 1)) = List.range' 1 (4 * m.blocks)
          ++ [i, i + 1, i + 2, i + 3] := by
        rw [show 4 * (m.blocks + 1) = 4 * m.blocks + 4 from rfl, ← List.range'_append_1]
        simp only [hi, List.range', Nat.add_comm 1]
      have hs := hv.slots
      rw [List.append_nil] at hs
      refine (hs.append_right _).trans ?_
      show List.Perm _ (List.range' 1 (4 * (m.blocks + 1)))
      rw [hr]
      refine List.Perm.append_left _ ?_
      exact (List.reverse_perm [i, i + 1, i + 2, i + 3])
    · intro b hb
      have := hold b hb
      simp only [addBlock, setPrev, mem_modify]
      repeat rw [if_neg (by omega)]

/-! ## Inserting an item -/

/-- Linking a fresh leaf into an empty hole, before heights are recomputed. -/
lemma represents_leaf {m m₁ : ItemTree T V} {c : List (Frame ℕ)} {a : ℕ} (hm : Represents m c nil)
    (ha : a ∉ labels c) (hmem : ∀ b ∈ labels c, (m₁.mem b).links = (m.mem b).links)
    (hroot : m₁.root = m.root) (hleaf : (m₁.mem a).links = (pathParent c, none, none, 1, 0)) :
    Represents (m₁.write (pathCell c) (some a)) c (node nil a 1 0 nil) := by
  have hnd : (labels c).Nodup := by simpa using hm.nodup
  have hpar : pathParent c ≠ some a := fun h => ha (pathParent_mem h)
  have hpath : RepPath m₁ c none := hm.path.congr hroot hmem
  refine ⟨hpath.write hnd (some a), ⟨?_, trivial, trivial⟩, by simpa using ⟨ha, hnd⟩⟩
  rw [links_write hpar, hleaf]
  rfl

/-- What is there after a new item was put into the hole: the tree has it, the chain does not. -/
structure NewItem (m m' : ItemTree T V) (c : List (Frame ℕ)) (a : ℕ) (free' : List ℕ) (k : T)
    (v : V) : Prop where
  links : Represents m' c (node nil a 1 0 nil)
  chain : Chain m'.nextOf m'.prevOf none ((plug c nil).inorder ++ [endItem])
  size : m'.size = m.size + 1
  freeChain : Stack m'.prevOf m'.freeItem free'
  slots : ((plug c nil).inorder ++ a :: free').Perm (List.range' 1 (4 * m'.blocks))
  key : (m'.mem a).key = k
  value : (m'.mem a).value = v
  other : ∀ b ∈ (plug c nil).inorder, (m'.mem b).key = (m.mem b).key
    ∧ (m'.mem b).value = (m.mem b).value

lemma Valid.newItem {m : ItemTree T V} {c : List (Frame ℕ)} {free : List ℕ}
    (hv : Valid m (plug c nil) free) (k : T) (v : V) :
    ∃ m' a free', m.newItem (pathCell c) (pathParent c) k v = (m', a)
      ∧ NewItem m m' c a free' k v := by
  obtain ⟨m₁, a, free₁, halloc, hst, hslots, hmem, hroot, hbegin, hsize⟩ := hv.allocItem
  have ha : a ∉ (plug c nil).inorder := fun h =>
    (List.nodup_append.mp (hslots.nodup_iff.mpr List.nodup_range')).2.2 a h a (by simp) rfl
  have hlab : ∀ b ∈ labels c, b ∈ (plug c nil).inorder := fun b hb =>
    (inorder_plug_perm c nil).mem_iff.mpr (by simpa using hb)
  set m₂ : ItemTree T V := { m₁.construct a (pathParent c) k v with
    freeItem := ((m₁.construct a (pathParent c) k v).mem a).prev } with hm₂
  have hother : ∀ b, b ≠ a → m₂.mem b = m₁.mem b := fun b hb => by
    simp only [hm₂, construct, mem_modify, if_neg hb]
  have hnext₂ : m₂.nextOf = m₁.nextOf := by
    funext z
    cases z with
    | none => rfl
    | some b => simp only [hm₂, nextOf, construct, mem_modify]; split <;> simp_all
  have hprev₂ : m₂.prevOf = m₁.prevOf := by
    funext b
    simp only [hm₂, prevOf, construct, mem_modify]; split <;> simp_all
  have hself : m₂.mem a = { m₁.mem a with
      key := k, value := v, parent := pathParent c, left := none, right := none, height := 1,
      slope := 0 } := by
    simp only [hm₂, construct, mem_modify, if_true]
  have ho := onlyLinks_write m₂ (pathCell c) (some a)
  refine ⟨{ m₂.write (pathCell c) (some a) with size := (m₂.write (pathCell c) (some a)).size + 1 },
    a, free₁, by rw [ItemTree.newItem, halloc], ?_, ?_, ?_, ?_, ?_, ?_, ?_, fun b hb => ?_⟩
  · have hleaf : Represents (m₂.write (pathCell c) (some a)) c (node nil a 1 0 nil) :=
      represents_leaf (represents_plug.mpr hv.links) (fun h => ha (hlab a h)) (fun b hb => by
        rw [hother b (by rintro rfl; exact ha (hlab b hb)), hmem b (Or.inl (hlab b hb))])
      hroot (by rw [hself]; rfl)
    exact ⟨hleaf.path.congr rfl fun _ _ => rfl, hleaf.sub, hleaf.nodup⟩
  · show Chain (m₂.write (pathCell c) (some a)).nextOf (m₂.write (pathCell c) (some a)).prevOf _ _
    rw [ho.nextOf, ho.prevOf, hnext₂, hprev₂]
    refine hv.chain.congr hv.chain_nodup (fun z hz _ => ?_) fun b hb => ?_
    · cases z with
      | none => exact hbegin
      | some b => simp only [nextOf, hmem b (by simpa using hz)]
    · simp only [prevOf, hmem b (by simpa using hb)]
  · show (m₂.write (pathCell c) (some a)).size + 1 = m.size + 1
    rw [ho.size, ← hsize]
    rfl
  · show Stack (m₂.write (pathCell c) (some a)).prevOf (m₂.write (pathCell c) (some a)).freeItem _
    rw [ho.prevOf, ho.freeItem, hprev₂]
    convert hst using 1
    rw [← hprev₂]
    rfl
  · show List.Perm _ (List.range' 1 (4 * (m₂.write (pathCell c) (some a)).blocks))
    rw [ho.blocks]
    exact hslots
  · show ((m₂.write (pathCell c) (some a)).mem a).key = k
    rw [ho.key, hself]
  · show ((m₂.write (pathCell c) (some a)).mem a).value = v
    rw [ho.value, hself]
  · show ((m₂.write (pathCell c) (some a)).mem b).key = _
      ∧ ((m₂.write (pathCell c) (some a)).mem b).value = _
    rw [ho.key, ho.value, hother b (by rintro rfl; exact ha hb), hmem b (Or.inl hb)]
    exact ⟨rfl, rfl⟩

/-- The item in front of which a leaf in the hole of `c` is linked. -/
lemma exists_insertPos (c : List (Frame ℕ)) : ∃ y l, after c ++ [endItem] = y :: l := by
  cases h : after c with
  | nil => exact ⟨_, _, rfl⟩
  | cons y l => exact ⟨y, l ++ [endItem], rfl⟩

/-- Where the code looks for it: `parent` itself or `parent->next`. -/
lemma insertPos_eq {m : ItemTree T V} {f : Frame ℕ} {c : List (Frame ℕ)} {y : ℕ} {l : List ℕ}
    (hy : after (f :: c) ++ [endItem] = y :: l)
    (hch : Chain m.nextOf m.prevOf none (before (f :: c) ++ y :: l)) :
    m.insertPos (.child f.item f.side) f.item = some y := by
  rw [insertPos]
  rcases f with ⟨_ | _, a, h, s, o⟩
  · rw [if_neg (by simp)]
    simp only [after, List.cons_append, List.cons.injEq] at hy
    rw [hy.1]
  · rw [if_pos rfl]
    simp only [before, ← List.append_assoc] at hch
    rw [List.append_assoc, List.singleton_append] at hch
    exact hch.next_eq

/-- Linking a fresh item in where a leaf in the hole of `c` belongs. -/
lemma chain_linkBefore {m : ItemTree T V} {l₁ l₂ : List ℕ} {a y : ℕ}
    (h : Chain m.nextOf m.prevOf none (l₁ ++ y :: l₂))
    (hnd : ((none : Ptr) :: (l₁ ++ y :: l₂).map some).Nodup) (ha : a ∉ l₁ ++ y :: l₂) :
    Chain (m.linkBefore a y).nextOf (m.linkBefore a y).prevOf none (l₁ ++ a :: y :: l₂) := by
  have hfresh : (some a : Ptr) ∉ (none : Ptr) :: (l₁ ++ y :: l₂).map some := by simpa using ha
  have hya : y ≠ a := by rintro rfl; exact ha (by simp)
  have hpy : m.prevOf y = endOf none l₁ := h.prev_eq
  refine h.insert hnd hfresh ?_ ?_ ?_ ?_ (fun z h₁ h₂ => ?_) fun b h₁ h₂ => ?_
  · rw [nextOf_linkBefore, hpy, if_neg, if_pos rfl]
    intro he
    have hmem := endOf_mem none l₁
    rw [he] at hmem
    exact ha (List.mem_append_left _ (by simpa using hmem))
  · rw [nextOf_linkBefore, if_pos rfl]
  · rw [prevOf_linkBefore, if_neg hya.symm, if_pos rfl, hpy]
  · rw [prevOf_linkBefore, if_pos rfl]
  · rw [nextOf_linkBefore, if_neg h₂, if_neg (by rwa [hpy])]
  · rw [prevOf_linkBefore, if_neg h₂, if_neg h₁]

/-- What an insertion in the hole of `c` comes to: the new item `a` stands in the tree and in the
chain exactly where the hole was, and every other item keeps its key and value. -/
structure Inserted (m m' : ItemTree T V) (c : List (Frame ℕ)) (a : ℕ) (k : T) (v : V) : Prop where
  valid : ∃ free', Valid m' (retrace c (node nil a 1 0 nil)) free'
  fresh : a ∉ (plug c nil).inorder
  key : (m'.mem a).key = k
  value : (m'.mem a).value = v
  other : ∀ b ∈ (plug c nil).inorder, (m'.mem b).key = (m.mem b).key
    ∧ (m'.mem b).value = (m.mem b).value

/-- **Inserting at an empty hole.** -/
theorem Valid.insertLeaf {m : ItemTree T V} {c : List (Frame ℕ)} {free : List ℕ}
    (hv : Valid m (plug c nil) free) (k : T) (v : V) :
    ∃ m' a, m.insertLeaf (pathCell c) (pathParent c) k v = some (m', a)
      ∧ Inserted m m' c a k v := by
  have hio : (plug c nil).inorder = before c ++ after c := by rw [inorder_plug]; simp
  obtain ⟨m₃, a, free₁, hnew, hm₃⟩ := hv.newItem k v
  have hnda := List.nodup_append.mp (hm₃.slots.nodup_iff.mpr List.nodup_range')
  have ha : a ∉ (plug c nil).inorder := fun h => hnda.2.2 a h a (by simp) rfl
  have hpos : ∀ b ∈ a :: free₁, b ≠ endItem := fun b hb => by
    have := hm₃.slots.mem_iff.mp (List.mem_append_right _ hb)
    rw [List.mem_range'_1] at this
    exact Nat.pos_iff_ne_zero.mp this.1
  -- the chain, with the leaf linked in
  obtain ⟨y, l, hy⟩ := exists_insertPos c
  have hnodes : (plug c nil).inorder ++ [endItem] = before c ++ y :: l := by
    rw [hio, List.append_assoc, hy]
  have hcn := hv.chain_nodup
  have hch₃ := hm₃.chain
  rw [hnodes] at hcn hch₃
  have hch₄ := chain_linkBefore hch₃ hcn (by
    rw [← hnodes]
    simpa using ⟨ha, hpos a (by simp)⟩)
  have ho₄ := onlyChain_linkBefore m₃ a y
  set m₄ := m₃.linkBefore a y with hm₄
  -- the upward loop
  have hbal := balanced_plug.mp hv.balanced
  have hsize₄ : m₄.size = (plug c nil).inorder.length + 1 := by
    rw [ho₄.size, hm₃.size, hv.size]
  have hfuel : c.length ≤ m₄.size := by
    rw [hsize₄, (inorder_plug_perm c nil).length_eq, inorder_nil, List.nil_append]
    exact Nat.le_succ_of_le (length_le_labels c)
  obtain ⟨m₅, hrun, hrep₅, ho₅⟩ := (ho₄.represents hm₃.links).retrace hbal.2 (balanced_leaf a)
    (by simp) (by simp) hfuel
  have hcode : m.insertLeaf (pathCell c) (pathParent c) k v = some (m₅, a) := by
    cases c with
    | nil =>
      obtain ⟨rfl, rfl⟩ : endItem = y ∧ [] = l := by simpa [after] using hy
      have hb₃ : m₃.begin = some endItem := hch₃.1
      have h₄ : m₄ = m₅ := by simpa [rebalParentUpwards] using hrun
      have hp₃ : (m₃.mem endItem).prev = none := hch₃.prev_eq
      rw [← h₄, hm₄, linkBefore, hp₃, ItemTree.insertLeaf, hnew, ← hb₃]
      rfl
    | cons f c =>
      rw [ItemTree.insertLeaf, hnew]
      rw [pathParent_cons] at hrun
      simp only [pathParent_cons, pathCell_cons, insertPos_eq hy hch₃, Option.bind_eq_bind,
        Option.bind_some, ← hm₄, hrun]
  have hio₅ : (retrace c (node nil a 1 0 nil)).inorder = before c ++ a :: after c := by
    rw [inorder_retrace]; simp
  refine ⟨m₅, a, hcode, ⟨free₁, hrep₅, ?_, ?_, ?_, ?_, ?_⟩, ha, ?_, ?_, fun b hb => ?_⟩
  · exact (retrace_balanced hbal.2 (balanced_leaf a) (by simp) (by simp)).1
  · rw [ho₅.nextOf, ho₅.prevOf, hio₅, List.append_assoc, List.cons_append, hy]
    exact hch₄
  · rw [ho₅.size, hsize₄, hio₅, hio]; simp; omega
  · rw [ho₅.prevOf, ho₅.freeItem, ho₄.freeItem]
    refine hm₃.freeChain.congr fun b hb => ?_
    have hy : y ∈ (plug c nil).inorder ++ [endItem] := by rw [hnodes]; simp
    rw [hm₄, prevOf_linkBefore, if_neg, if_neg]
    · rintro rfl; exact (List.nodup_cons.mp hnda.2.1).1 hb
    · rintro rfl
      rcases List.mem_append.mp hy with hy | hy
      · exact hnda.2.2 b hy b (by simp [hb]) rfl
      · exact hpos b (by simp [hb]) (List.mem_singleton.mp hy)
  · rw [ho₅.blocks, ho₄.blocks, hio₅]
    refine List.Perm.trans ?_ hm₃.slots
    rw [hio, List.append_assoc, List.cons_append, List.append_assoc]
    exact List.Perm.append_left _ List.perm_middle.symm
  · rw [ho₅.key, ho₄.key, hm₃.key]
  · rw [ho₅.value, ho₄.value, hm₃.value]
  · rw [ho₅.key, ho₄.key, ho₅.value, ho₄.value]
    exact hm₃.other b hb

end ItemTree

end Nstd
