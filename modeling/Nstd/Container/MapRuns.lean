import Nstd.Container.Map

/-!
# Runs of a `Map`

Every operation of `Map`, any number of them in any order, against a reference that keeps the
entries in a sorted list.

* `Op.exec`, `Op.reference` — what the code does and what the reference does.
* `Reaches` — the pairs of a map and a reference that a sequence of operations leads to.
* `exec_spec` — one operation: it returns, keeps the invariant and does what the reference does.
* **`runs_correct`** — from that, every state of every run.
* **`insertAt_eq_insert`** — every valid hint leads to the same entries as no hint at all.

The tree and the list of items are two views of one sequence.  An insertion or a removal changes it at
one place and rotations leave it alone, so the entries stay sorted and the reference does the same.
-/

namespace Nstd

open BalancedTree
open BalancedTree.AvlTree
open Linked

variable {T V : Type}

/-- A `Map` object: an item tree that keeps the invariant. -/
structure Map (T V : Type) [LinearOrder T] where
  tree : ItemTree T V
  isMap : ∃ t free l, Map.IsMap tree t free l

namespace Map

open ItemTree

/-- The operations on a map.  An iterator is the item it points to. -/
inductive Op (T V : Type) [LinearOrder T]
  | insert (key : T) (value : V)
  | insertAt (position : ℕ) (key : T) (value : V)
  | insertMap (other : Map T V)
  | insertSelf
  | removeKey (key : T)
  | remove (it : ℕ)
  | removeFront
  | removeBack
  | clear

variable [LinearOrder T]

namespace Op

/-- What a caller has to see to: iterators belong to the map, and there is something to remove. -/
def Allowed (m : ItemTree T V) : Op T V → Prop
  | insertAt position _ _ => position ∈ m.items ∨ position = endItem
  | remove it => it ∈ m.items
  | removeFront => m.items ≠ []
  | removeBack => m.items ≠ []
  | _ => True

/-- Run an operation; the pointer is the iterator it returns. -/
def exec (m : ItemTree T V) : Op T V → Option (ItemTree T V × Ptr)
  | insert key value => do
    let (m, it) ← Map.insert m key value
    some (m, some it)
  | insertAt position key value => do
    let (m, it) ← Map.insertAt m position key value
    some (m, some it)
  | insertMap other => do
    let m ← Map.insertMap m (some other.tree)
    some (m, none)
  | insertSelf => do
    let m ← Map.insertMap m none
    some (m, none)
  | removeKey key => do
    let m ← m.removeKey key
    some (m, none)
  | remove it => m.remove it
  | removeFront => m.removeFront
  | removeBack => m.removeBack
  | clear => do
    let m ← m.clear
    some (m, none)

/-- What the operation does to the reference `l`; iterators stand for the keys they show. -/
def reference (m : ItemTree T V) (l : List (T × V)) : Op T V → List (T × V)
  | insert key value => SortedAssoc.insert key value l
  | insertAt _ key value => SortedAssoc.insert key value l
  | insertMap other => SortedAssoc.insertAll l (contents other.tree)
  | insertSelf => SortedAssoc.insertAll l l
  | removeKey key => SortedAssoc.erase key l
  | remove it => SortedAssoc.erase (m.mem it).key l
  | removeFront => l.tail
  | removeBack => l.dropLast
  | clear => []

/-- The operation takes the item out of the map. -/
def Removes (m : ItemTree T V) : Op T V → ℕ → Prop
  | removeKey key, a => (m.mem a).key = key
  | remove it, a => a = it
  | removeFront, a => m.items.head? = some a
  | removeBack, a => m.items.getLast? = some a
  | clear, _ => True
  | _, _ => False

/-- What the iterator returned is: the entry written, or the item after the one removed. -/
def Returns (m m' : ItemTree T V) (r : Ptr) : Op T V → Prop
  | insert key value | insertAt _ key value =>
    ∃ a ∈ m'.items, r = some a ∧ (m'.mem a).key = key ∧ (m'.mem a).value = value
  | remove it => ∀ l₁ l₂, m.items = l₁ ++ it :: l₂ → r = (l₂ ++ [endItem]).head?
  | removeFront => r = (m.items.tail ++ [endItem]).head?
  | removeBack => r = some endItem
  | _ => r = none

end Op

/-- A map and its reference after some operations, each of them allowed when it was called. -/
inductive Reaches [Inhabited T] [Inhabited V] : ItemTree T V → List (T × V) → Prop
  | empty : Reaches empty []
  | step {m m' : ItemTree T V} {l : List (T × V)} {op : Op T V} {r : Ptr} : Reaches m l →
      op.Allowed m → op.exec m = some (m', r) → Reaches m' (op.reference m l)

instance Op.decidableAllowed (m : ItemTree T V) : (op : Op T V) → Decidable (op.Allowed m)
  | .insertAt .. => inferInstanceAs (Decidable (_ ∨ _))
  | .remove _ => inferInstanceAs (Decidable (_ ∈ _))
  | .removeFront | .removeBack => inferInstanceAs (Decidable (_ ≠ _))
  | .insert .. | .insertMap _ | .insertSelf | .removeKey _ | .clear =>
    inferInstanceAs (Decidable True)

/-- An operation that is allowed, on a map and its reference -/
def Op.run (s : ItemTree T V × List (T × V)) (op : Op T V) : Option (ItemTree T V × List (T × V)) :=
  if op.Allowed s.1 then (op.exec s.1).map fun r => (r.1, op.reference s.1 s.2) else none

/-! ## One operation -/

lemma IsMap.contents_eq {m : ItemTree T V} {t : AvlTree ℕ} {free : List ℕ} {l : List (T × V)}
    (h : IsMap m t free l) : contents m = l := by
  rw [contents, h.valid.items_eq]
  exact h.entries

lemma IsMap.keys_le {m : ItemTree T V} {t : AvlTree ℕ} {free : List ℕ} {l : List (T × V)}
    (h : IsMap m t free l) : (t.inorder.map fun b => (m.mem b).key).Pairwise (· ≤ ·) := by
  have hs := h.sorted
  rw [SortedAssoc.Sorted, ← h.entries, ItemTree.entries, List.map_map] at hs
  exact List.Pairwise.imp le_of_lt hs

/-- A map without one of its items. -/
lemma IsMap.of_remove {m m' : ItemTree T V} {t t' : AvlTree ℕ} {free free' l₁ l₂ : List ℕ}
    {l : List (T × V)} {a : ℕ} (h : IsMap m t free l) (ht : t.inorder = l₁ ++ a :: l₂)
    (hv : Valid m' t' free') (ht' : t'.inorder = l₁ ++ l₂) (hdata : SameData m m') :
    IsMap m' t' free' (SortedAssoc.erase (m.mem a).key l)
      ∧ SortedAssoc.erase (m.mem a).key l
        = (l₁ ++ l₂).map (fun b => ((m.mem b).key, (m.mem b).value)) := by
  have hl : l = l₁.map (fun b => ((m.mem b).key, (m.mem b).value))
      ++ ((m.mem a).key, (m.mem a).value) :: l₂.map fun b => ((m.mem b).key, (m.mem b).value) := by
    rw [← h.entries, ItemTree.entries, ht, List.map_append, List.map_cons]
  have hsorted := h.sorted
  rw [hl] at hsorted
  have herase := SortedAssoc.erase_at hsorted
  rw [← hl] at herase
  refine ⟨⟨hv, ?_, ?_⟩, by rw [herase, List.map_append]⟩
  · rw [herase, ItemTree.entries, ht', ← List.map_append]
    exact List.map_congr_left fun b _ => by rw [(hdata b).1, (hdata b).2]
  · exact h.sorted.sublist ((List.filter_sublist).map _)

omit [LinearOrder T] in
lemma kept_of_remove {m m' : ItemTree T V} {t t' : AvlTree ℕ} {l₁ l₂ : List ℕ} {a : ℕ}
    (ht : t.inorder = l₁ ++ a :: l₂) (ht' : t'.inorder = l₁ ++ l₂) (hdata : SameData m m') :
    ∀ b ∈ t.inorder, b ≠ a → b ∈ t'.inorder ∧ (m'.mem b).key = (m.mem b).key := by
  intro b hb hba
  rw [ht, List.mem_append, List.mem_cons] at hb
  rw [ht', List.mem_append]
  exact ⟨hb.imp_right fun h => h.resolve_left hba, (hdata b).1⟩

/-- What one operation comes to. -/
structure Executed (m m' : ItemTree T V) (t : AvlTree ℕ) (l : List (T × V)) (op : Op T V) (r : Ptr) :
    Prop where
  isMap : ∃ t' free', IsMap m' t' free' (op.reference m l)
    ∧ ∀ b ∈ t.inorder, ¬ op.Removes m b → b ∈ t'.inorder ∧ (m'.mem b).key = (m.mem b).key
  returns : op.Returns m m' r

/-- **One operation.**  It returns, keeps the invariant and does what the reference does; no item
moves but the ones it removes; and it returns the right iterator. -/
theorem exec_spec {m : ItemTree T V} {t : AvlTree ℕ} {free : List ℕ} {l : List (T × V)}
    (h : IsMap m t free l) (op : Op T V) (hop : op.Allowed m) :
    ∃ m' r, op.exec m = some (m', r) ∧ Executed m m' t l op r := by
  have hitems := h.valid.items_eq
  cases op with
  | insert k v =>
    obtain ⟨m', a, hrun, hw⟩ := insert_spec h k v
    obtain ⟨t', free', h', ha, hk⟩ := hw.kept
    refine ⟨m', some a, by simp [Op.exec, hrun], ⟨⟨t', free', h', fun b hb _ => hk b hb⟩, a, ?_,
      rfl, hw.key, hw.value⟩⟩
    rwa [h'.valid.items_eq]
  | insertAt p k v =>
    obtain ⟨m', a, hrun, hw⟩ := insertAt_spec h
      (hitems ▸ hop : p ∈ t.inorder ∨ p = endItem) k v
    obtain ⟨t', free', h', ha, hk⟩ := hw.kept
    refine ⟨m', some a, by simp [Op.exec, hrun], ⟨⟨t', free', h', fun b hb _ => hk b hb⟩, a, ?_,
      rfl, hw.key, hw.value⟩⟩
    rwa [h'.valid.items_eq]
  | insertMap o =>
    obtain ⟨u, freeo, lo, ho⟩ := o.isMap
    obtain ⟨m', t', free', hrun, h', hk⟩ := insertMap_spec h ho
    refine ⟨m', none, by simp [Op.exec, hrun], ⟨⟨t', free', ?_, fun b hb _ => hk b hb⟩, rfl⟩⟩
    rw [Op.reference, ho.contents_eq]
    exact h'
  | insertSelf =>
    obtain ⟨m', t', free', hrun, h', hk⟩ := insertMap_self_spec h
    refine ⟨m', none, by simp [Op.exec, hrun], ⟨⟨t', free', ?_, fun b hb _ => hk b hb⟩, rfl⟩⟩
    rw [Op.reference, SortedAssoc.insertAll_of_subset h.sorted fun _ he => he]
    exact h'
  | removeKey k =>
    obtain ⟨r, hfind, ⟨hr, rfl⟩ | ⟨rfl, hne⟩⟩ := h.valid.find h.keys_le k
    · obtain ⟨l₁, l₂, ht⟩ := List.append_of_mem hr
      obtain ⟨m', t', hrun, hv', ht', hdata⟩ := h.valid.remove ht
      refine ⟨m', none, ?_, ⟨⟨t', _, (h.of_remove ht hv' ht' hdata).1, fun b hb hnr => ?_⟩, rfl⟩⟩
      · have hne : r ≠ endItem := h.valid.ne_endItem (Or.inl hr)
        simp only [Op.exec, ItemTree.removeKey, hfind, Option.bind_eq_bind, Option.bind_some,
          if_neg hne, hrun]
      · exact kept_of_remove ht ht' hdata b hb fun e => hnr (congrArg (fun b => (m.mem b).key) e)
    · refine ⟨m, none, by simp [Op.exec, ItemTree.removeKey, hfind], ⟨⟨t, free, ?_,
        fun b hb _ => ⟨hb, rfl⟩⟩, rfl⟩⟩
      rw [Op.reference, SortedAssoc.erase_of_forall_ne]
      · exact h
      · rw [← h.entries]
        intro e he
        obtain ⟨b, hb, rfl⟩ := List.mem_map.mp he
        exact hne b hb
  | remove it =>
    obtain ⟨l₁, l₂, ht⟩ := List.append_of_mem (hitems ▸ hop : it ∈ t.inorder)
    obtain ⟨m', t', hrun, hv', ht', hdata⟩ := h.valid.remove ht
    refine ⟨m', _, hrun, ⟨⟨t', _, (h.of_remove ht hv' ht' hdata).1, fun b hb hnr =>
      kept_of_remove ht ht' hdata b hb hnr⟩, fun l₁' l₂' hsplit => ?_⟩⟩
    rw [hitems, ht] at hsplit
    have hnd := List.nodup_append.mp (ht ▸ h.valid.nodup)
    have h₁ : it ∉ l₁ := fun hm => hnd.2.2 it hm it (by simp) rfl
    obtain ⟨-, -, rfl⟩ :=
      (List.append_cons_inj_of_notMem h₁ (List.nodup_cons.mp hnd.2.1).1).mp hsplit
    rfl
  | removeFront =>
    cases ht : t.inorder with
    | nil => exact absurd (hitems.trans ht) hop
    | cons a l₂ =>
      obtain ⟨m', t', hrun, hv', ht', hdata⟩ := h.valid.removeFront ht
      obtain ⟨h', herase⟩ := h.of_remove (show t.inorder = [] ++ a :: l₂ from ht) hv' ht' hdata
      refine ⟨m', _, hrun, ⟨⟨t', a :: free, ?_, fun b hb hnr =>
        kept_of_remove (show t.inorder = [] ++ a :: l₂ from ht) ht' hdata b hb ?_⟩, ?_⟩⟩
      · rw [herase] at h'
        rwa [Op.reference, ← h.entries, entries, ht]
      · rintro rfl
        exact hnr (by rw [Op.Removes, hitems, ht]; rfl)
      · rw [Op.Returns, hitems, ht]; rfl
  | removeBack =>
    rcases List.eq_nil_or_concat t.inorder with ht | ⟨l₁, a, ht⟩
    · exact absurd (hitems.trans ht) hop
    · rw [List.concat_eq_append] at ht
      obtain ⟨m', t', hrun, hv', ht', hdata⟩ := h.valid.removeBack ht
      obtain ⟨h', herase⟩ := h.of_remove ht hv' (ht'.trans (List.append_nil l₁).symm) hdata
      refine ⟨m', _, hrun, ⟨⟨t', a :: free, ?_, fun b hb hnr =>
        kept_of_remove ht (ht'.trans (List.append_nil l₁).symm) hdata b hb ?_⟩, rfl⟩⟩
      · rw [herase, List.append_nil] at h'
        rwa [Op.reference, ← h.entries, entries, ht, List.map_append, List.map_singleton,
          List.dropLast_concat]
      · rintro rfl
        exact hnr (by rw [Op.Removes, hitems, ht, List.getLast?_concat])
  | clear =>
    obtain ⟨m', free', hrun, hv'⟩ := h.valid.clear
    refine ⟨m', none, by simp [Op.exec, hrun], ⟨⟨nil, free', ⟨hv', rfl, List.Pairwise.nil⟩,
      fun _ _ hnr => absurd trivial hnr⟩, rfl⟩⟩

/-! ## Runs -/

/-- A map with entries `l`: what all its fields say, over the tree `t` they describe. -/
structure Correct (m : ItemTree T V) (t : AvlTree ℕ) (l : List (T × V)) : Prop where
  links : Represents m [] t
  ordered : t.Ordered fun a b => (m.mem a).key < (m.mem b).key
  heights : t.Exact
  chain : Chain m.nextOf m.prevOf none (t.inorder ++ [endItem])
  size : m.size = t.inorder.length
  contents : contents m = l

lemma IsMap.correct {m : ItemTree T V} {t : AvlTree ℕ} {free : List ℕ} {l : List (T × V)}
    (h : IsMap m t free l) : Correct m t l where
  links := h.valid.links
  ordered := by
    have hs := h.sorted
    rw [SortedAssoc.Sorted, ← h.entries, ItemTree.entries, List.map_map, List.pairwise_map] at hs
    exact ordered_of_pairwise hs
  heights := h.valid.balanced.exact
  chain := h.valid.chain
  size := h.valid.size
  contents := h.contents_eq

variable [Inhabited T] [Inhabited V]

/-- The invariant holds in every run. -/
theorem Reaches.isMap {m : ItemTree T V} {l : List (T × V)} (h : Reaches m l) :
    ∃ t free, IsMap m t free l := by
  induction h with
  | empty => exact ⟨nil, [], valid_empty, rfl, List.Pairwise.nil⟩
  | step _ hop hrun ih =>
    obtain ⟨t, free, h⟩ := ih
    obtain ⟨m₁, r₁, hrun₁, hex⟩ := exec_spec h _ hop
    obtain ⟨rfl, rfl⟩ : m₁ = _ ∧ r₁ = _ := by simpa using hrun₁.symm.trans hrun
    obtain ⟨t', free', h', -⟩ := hex.isMap
    exact ⟨t', free', h'⟩

/-- **Every run of a map.**  After any operations, starting from an empty map, the links, heights,
order, chain and size are right and the contents are those of the reference.  Every further
operation returns; the map it leaves is again right; the iterator it returns is the entry written
or the successor of the item removed; and every item it does not remove is still there, with its
key. -/
theorem runs_correct {m : ItemTree T V} {l : List (T × V)} (h : Reaches m l) :
    ∃ t, Correct m t l ∧ ∀ op : Op T V, op.Allowed m →
      ∃ m' r t', op.exec m = some (m', r) ∧ Correct m' t' (op.reference m l) ∧ op.Returns m m' r
        ∧ ∀ b ∈ t.inorder, ¬ op.Removes m b → b ∈ t'.inorder ∧ (m'.mem b).key = (m.mem b).key := by
  obtain ⟨t, free, hm⟩ := h.isMap
  refine ⟨t, hm.correct, fun op hop => ?_⟩
  obtain ⟨m', r, hrun, hex⟩ := exec_spec hm op hop
  obtain ⟨t', free', hm', hkept⟩ := hex.isMap
  exact ⟨m', r, t', hrun, hm'.correct, hex.returns, hkept⟩

/-- Operations that run lead to a map that is reached. -/
lemma Reaches.foldlM {ops : List (Op T V)} {s s' : ItemTree T V × List (T × V)}
    (h : Reaches s.1 s.2) (hrun : ops.foldlM Op.run s = some s') : Reaches s'.1 s'.2 := by
  induction ops generalizing s with
  | nil => exact Option.some_inj.mp hrun ▸ h
  | cons op ops ih =>
    obtain ⟨s₁, hop, hrest⟩ := Option.bind_eq_some_iff.mp hrun
    rw [Op.run] at hop
    split_ifs at hop with hallowed
    obtain ⟨⟨m, r⟩, hexec, rfl⟩ := Option.map_eq_some_iff.mp hop
    exact ih (.step h hallowed hexec) hrest

/-- A map that some operations lead to, with what is evaluated there -/
lemma exists_reaches (ops : List (Op ℕ ℕ)) {p : ItemTree ℕ ℕ × List (ℕ × ℕ) → Bool}
    (h : (ops.foldlM Op.run (ItemTree.empty, [])).any p = true) :
    ∃ m l, Reaches m l ∧ p (m, l) = true := by
  obtain ⟨s, hrun, hp⟩ := (Option.any_eq_true _ _).mp h
  exact ⟨s.1, s.2, .foldlM .empty hrun, hp⟩

/-- Three insertions, of which the last one turns the tree, a removal, and an insertion with a hint,
    which finds its key; then the first entry is removed. -/
theorem runs_correct_turned : ∃ (m : ItemTree ℕ ℕ) (t : AvlTree ℕ),
    Reaches m [(1, 11), (3, 30)] ∧ Correct m t [(1, 11), (3, 30)] ∧
    ∃ m' r t', Op.exec m .removeFront = some (m', r) ∧ Correct m' t' [(3, 30)] := by
  obtain ⟨m, _, hreaches, hp⟩ := exists_reaches
    [.insert 1 10, .insert 2 20, .insert 3 30, .removeKey 2, .insertAt 2 1 11]
    (p := fun s => s.2 = [(1, 11), (3, 30)] ∧ s.1.items ≠ []) (by decide)
  obtain ⟨rfl, hitems⟩ := of_decide_eq_true hp
  obtain ⟨t, hcorrect, hall⟩ := runs_correct hreaches
  obtain ⟨m', r, t', hexec, hcorrect', -⟩ := hall .removeFront hitems
  exact ⟨m, t, hreaches, hcorrect, m', r, t', hexec, hcorrect'⟩

/-! ## Hints -/

/-- What inserting an entry leaves: the entries `l`, and the iterator `a` at the one with the key. -/
structure Entered (m : ItemTree T V) (l : List (T × V)) (k : T) (v : V) (a : ℕ) : Prop where
  correct : ∃ t, Correct m t l ∧ t.Balanced
  size : m.size = l.length
  mem : a ∈ m.items
  key : (m.mem a).key = k
  value : (m.mem a).value = v

omit [Inhabited T] [Inhabited V] in
lemma Written.entered {m m' : ItemTree T V} {t : AvlTree ℕ} {l : List (T × V)} {k : T} {v : V}
    {a : ℕ} (h : Written m m' t l k v a) : Entered m' (SortedAssoc.insert k v l) k v a := by
  obtain ⟨t', free', h', ha, -⟩ := h.isMap
  refine ⟨⟨t', h'.correct, h'.valid.balanced⟩, ?_, ?_, h.key, h.value⟩
  · rw [h'.valid.size, ← h'.entries, entries, List.length_map]
  · rwa [h'.valid.items_eq]

/-- **A hint changes nothing.**  Two maps with the same entries, however they came about, have the
same entries after an insertion with any valid hint into the one and an insertion without a hint
into the other; both are balanced search trees, and both iterators are at the entry. -/
theorem insertAt_eq_insert {m₁ m₂ : ItemTree T V} {l₁ l₂ : List (T × V)} (h₁ : Reaches m₁ l₁)
    (h₂ : Reaches m₂ l₂) (heq : contents m₁ = contents m₂) {position : ℕ}
    (hp : position ∈ m₁.items ∨ position = endItem) (k : T) (v : V) :
    ∃ m₁' a₁ m₂' a₂ l, insertAt m₁ position k v = some (m₁', a₁)
      ∧ insert m₂ k v = some (m₂', a₂) ∧ Entered m₁' l k v a₁ ∧ Entered m₂' l k v a₂ := by
  obtain ⟨t₁, free₁, hm₁⟩ := h₁.isMap
  obtain ⟨t₂, free₂, hm₂⟩ := h₂.isMap
  have hl : l₁ = l₂ := by rw [← hm₁.contents_eq, heq, hm₂.contents_eq]
  subst hl
  rw [hm₁.valid.items_eq] at hp
  obtain ⟨m₁', a₁, hrun₁, hw₁⟩ := insertAt_spec hm₁ hp k v
  obtain ⟨m₂', a₂, hrun₂, hw₂⟩ := insert_spec hm₂ k v
  exact ⟨m₁', a₁, m₂', a₂, _, hrun₁, hrun₂, hw₁.entered, hw₂.entered⟩

/-- A hint in the middle of a map with four entries, and a map with the same entries that came about in
    another way -/
theorem insertAt_eq_insert_middle : ∃ (m₁ m₂ : ItemTree ℕ ℕ),
    m₁.items = [4, 3, 2, 1] ∧ m₂.items = [8, 1, 2, 4] ∧ ∃ m₁' a₁ m₂' a₂ l,
      insertAt m₁ 2 4 40 = some (m₁', a₁) ∧ insert m₂ 4 40 = some (m₂', a₂)
      ∧ Entered m₁' l 4 40 a₁ ∧ Entered m₂' l 4 40 a₂ := by
  obtain ⟨m₁, _, h₁, hp₁⟩ := exists_reaches
    [.insert 1 10, .insert 2 20, .insert 3 30, .insert 5 50]
    (p := fun s => s.1.items = [4, 3, 2, 1]
      ∧ s.1.contents = [(1, 10), (2, 20), (3, 30), (5, 50)]) (by decide)
  obtain ⟨m₂, _, h₂, hp₂⟩ := exists_reaches
    [.insert 5 50, .insert 4 40, .insert 3 30, .insert 2 20, .insert 1 10, .removeKey 4]
    (p := fun s => s.1.items = [8, 1, 2, 4]
      ∧ s.1.contents = [(1, 10), (2, 20), (3, 30), (5, 50)]) (by decide)
  obtain ⟨hitems₁, hcontents₁⟩ := of_decide_eq_true hp₁
  obtain ⟨hitems₂, hcontents₂⟩ := of_decide_eq_true hp₂
  exact ⟨m₁, m₂, hitems₁, hitems₂, insertAt_eq_insert h₁ h₂ (hcontents₁.trans hcontents₂.symm)
    (Or.inl (by rw [hitems₁]; decide)) 4 40⟩

end Map

end Nstd
