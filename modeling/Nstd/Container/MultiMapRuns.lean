import Mathlib.Data.Multiset.ZeroCons
import Nstd.Container.MultiMap
import Nstd.Core.System

/-!
# Runs of a `MultiMap`

Every operation of `MultiMap`, any number of them in any order, against a multiset of entries that
is told what the caller sees of each of them.

* `Op.exec` — what the code does.
* `Op.call`, `Call.Does` — what the multiset is told, and what it then does.
* `Op.Moves` — what becomes of the items one by one.
* `exec_spec` — one operation.
* **`multiMap_runs`** — every state of every run.

Equal keys are told apart by their items.  The invariant keeps the sequence of items, which rotations
leave alone and an insertion or a removal changes at one place.
-/

namespace Nstd

open BalancedTree
open BalancedTree.AvlTree
open Linked

variable {T V : Type}

namespace MultiMap

open ItemTree

/-- The operations on a multimap.  An iterator is the item it points to. -/
inductive Op (T V : Type)
  | insert (key : T) (value : V)
  | insertAt (position : ℕ) (key : T) (value : V)
  | removeKey (key : T)
  | remove (it : ℕ)
  | removeFront
  | removeBack
  | clear

/-- What a caller sees of an operation: entries where the code has iterators -/
inductive Call (T V : Type)
  | insert (entry : T × V)
  | removeKey (key : T)
  | remove (entry : T × V)
  | removeFront
  | removeBack
  | clear
  deriving DecidableEq

/-- The entry an iterator shows -/
def entry (m : ItemTree T V) (it : ℕ) : T × V := ((m.mem it).key, (m.mem it).value)

variable [LinearOrder T]

/-- What the call may do to a multiset of entries.  `removeKey` takes any one entry with the key. -/
def Call.Does (s s' : Multiset (T × V)) : Call T V → Prop
  | insert e => s' = e ::ₘ s
  | removeKey k => (∃ v, s = (k, v) ::ₘ s') ∨ (∀ e ∈ s, e.1 ≠ k) ∧ s' = s
  | remove e => s = e ::ₘ s'
  | removeFront => ∃ e, s = e ::ₘ s' ∧ ∀ e' ∈ s', e.1 ≤ e'.1
  | removeBack => ∃ e, s = e ::ₘ s' ∧ ∀ e' ∈ s', e'.1 ≤ e.1
  | clear => s' = 0

namespace Op

/-- What a caller has to see to: iterators belong to the map, and there is something to remove. -/
def Allowed (m : ItemTree T V) : Op T V → Prop
  | insertAt position _ _ => position ∈ m.items ∨ position = endItem
  | remove it => it ∈ m.items
  | removeFront => m.items ≠ []
  | removeBack => m.items ≠ []
  | _ => True

/-- Run an operation; the pointer is the iterator it returns. -/
def exec (m : ItemTree T V) : Op T V → Option (ItemTree T V × Ptr)
  | insert key value => do
    let (m, it) ← MultiMap.insert m key value
    some (m, some it)
  | insertAt position key value => do
    let (m, it) ← MultiMap.insertAt m position key value
    some (m, some it)
  | removeKey key => do
    let m ← m.removeKey key
    some (m, none)
  | remove it => m.remove it
  | removeFront => m.removeFront
  | removeBack => m.removeBack
  | clear => do
    let m ← m.clear
    some (m, none)

/-- What the caller sees -/
def call (m : ItemTree T V) : Op T V → Call T V
  | insert key value => .insert (key, value)
  | insertAt _ key value => .insert (key, value)
  | removeKey key => .removeKey key
  | remove it => .remove (entry m it)
  | removeFront => .removeFront
  | removeBack => .removeBack
  | clear => .clear

/-- What becomes of the items.  Without a hint the new one stands behind all its equals; whatever is
    removed, the others stay as they were; and `r` is the new item or the one after the old one. -/
def Moves (m m' : ItemTree T V) (r : Ptr) : Op T V → Prop
  | insert k v => ∃ a l₁ l₂, r = some a ∧ m.items = l₁ ++ l₂ ∧ m'.items = l₁ ++ a :: l₂
      ∧ entry m' a = (k, v) ∧ (∀ b ∈ l₁, (m.mem b).key ≤ k) ∧ ∀ b ∈ l₂, k < (m.mem b).key
  | insertAt _ k v => ∃ a l₁ l₂, r = some a ∧ m.items = l₁ ++ l₂ ∧ m'.items = l₁ ++ a :: l₂
      ∧ entry m' a = (k, v)
  | removeKey k => r = none ∧ ((∃ a l₁ l₂, (m.mem a).key = k ∧ m.items = l₁ ++ a :: l₂
      ∧ m'.items = l₁ ++ l₂) ∨ (∀ b ∈ m.items, (m.mem b).key ≠ k) ∧ m'.items = m.items)
  | remove it => ∃ l₁ l₂, m.items = l₁ ++ it :: l₂ ∧ m'.items = l₁ ++ l₂
      ∧ r = (l₂ ++ [endItem]).head?
  | removeFront => ∃ a, m.items = a :: m'.items ∧ r = (m'.items ++ [endItem]).head?
  | removeBack => ∃ a, m.items = m'.items ++ [a] ∧ r = some endItem
  | clear => r = none ∧ m'.items = []

end Op

/-- Multimaps, from the empty one on -/
def system (T V : Type) [LinearOrder T] [Inhabited T] [Inhabited V] :
    System (ItemTree T V) (Call T V) where
  initial m := m = ItemTree.empty
  step m cs m' := ∃ (op : Op T V) (r : Ptr), op.Allowed m ∧ op.exec m = some (m', r)
    ∧ cs = [op.call m]

/-- Multisets of entries, from the empty one on -/
def reference (T V : Type) [LinearOrder T] : System (Multiset (T × V)) (Call T V) where
  initial s := s = 0
  step s cs s' := ∃ c : Call T V, c.Does s s' ∧ cs = [c]

instance Op.decidableAllowed (m : ItemTree T V) : (op : Op T V) → Decidable (op.Allowed m)
  | .insertAt .. => inferInstanceAs (Decidable (_ ∨ _))
  | .remove _ => inferInstanceAs (Decidable (_ ∈ _))
  | .removeFront | .removeBack => inferInstanceAs (Decidable (_ ≠ _))
  | .insert .. | .removeKey _ | .clear => inferInstanceAs (Decidable True)

/-- An operation that is allowed, and its call -/
def Op.run (m : ItemTree T V) (op : Op T V) : Option (ItemTree T V × List (Call T V)) :=
  if op.Allowed m then (op.exec m).map fun r => (r.1, [op.call m]) else none

/-- A multimap that some operations lead to, with what is evaluated there -/
lemma exists_run [Inhabited T] [Inhabited V] (ops : List (Op T V))
    {p : ItemTree T V × List (Call T V) → Bool}
    (h : (System.exec Op.run ItemTree.empty ops).any p = true) :
    ∃ m cs, (system T V).Run cs m ∧ p (m, cs) = true := by
  obtain ⟨⟨m, cs⟩, hrun, hp⟩ := (Option.any_eq_true _ _).mp h
  refine ⟨m, cs, ?_, hp⟩
  refine System.Run.exec (fun m op m' cs hop => ?_) (.start rfl) hrun
  rw [Op.run] at hop
  split_ifs at hop with hallowed
  obtain ⟨⟨m₁, r⟩, hexec, heq⟩ := Option.map_eq_some_iff.mp hop
  obtain ⟨rfl, rfl⟩ := Prod.mk.inj heq
  exact ⟨op, r, hallowed, hexec, rfl⟩

/-! ## One operation -/

/-- What one operation comes to -/
structure Executed (m m' : ItemTree T V) (op : Op T V) (r : Ptr) : Prop where
  isMultiMap : ∃ t' free', IsMultiMap m' t' free'
  does : (op.call m).Does (m.contents : Multiset (T × V)) m'.contents
  moves : op.Moves m m' r
  kept : ∀ b ∈ m.items, b ∈ m'.items → entry m' b = entry m b

omit [LinearOrder T] in
lemma entry_eq_of_sameData {m m' : ItemTree T V} (h : SameData m m') (b : ℕ) :
    entry m' b = entry m b := by
  rw [entry, entry, (h b).1, (h b).2]

omit [LinearOrder T] in
lemma contents_eq_map (m : ItemTree T V) : m.contents = m.items.map (entry m) := rfl

/-- The entries beside the one of an item that is taken out -/
lemma contents_of_remove {m m' : ItemTree T V} {t t' : AvlTree ℕ} {free free' l₁ l₂ : List ℕ}
    {a : ℕ} (h : IsMultiMap m t free) (h' : IsMultiMap m' t' free') (ht : t.inorder = l₁ ++ a :: l₂)
    (ht' : t'.inorder = l₁ ++ l₂) (hdata : SameData m m') :
    (m.contents : Multiset (T × V)) = entry m a ::ₘ m'.contents
      ∧ ∀ e ∈ (m'.contents : Multiset (T × V)), ∃ b ∈ l₁ ++ l₂, e = entry m b := by
  refine ⟨Multiset.coe_eq_coe.mpr (perm_of_remove h h' ht ht' hdata), ?_⟩
  intro e he
  rw [Multiset.mem_coe, contents_eq_map, h'.valid.items_eq, ht'] at he
  obtain ⟨b, hb, rfl⟩ := List.mem_map.mp he
  exact ⟨b, hb, entry_eq_of_sameData hdata b⟩

/-- **One operation.**  It returns, keeps the invariant and does what the multiset may do. -/
theorem exec_spec {m : ItemTree T V} {t : AvlTree ℕ} {free : List ℕ} (h : IsMultiMap m t free)
    (op : Op T V) (hop : op.Allowed m) : ∃ m' r, op.exec m = some (m', r) ∧ Executed m m' op r := by
  have hitems := h.valid.items_eq
  cases op with
  | insert k v =>
    obtain ⟨m', a, hrun, hadd⟩ := insert_spec h k v
    obtain ⟨l₁, l₂, hadd, hb, ha⟩ := hadd.addedAt
    obtain ⟨t', free', h', ht'⟩ := hadd.isMultiMap
    refine ⟨m', some a, by simp [Op.exec, hrun], ⟨t', free', h'⟩, ?_, ?_, ?_⟩
    · exact Multiset.coe_eq_coe.mpr (hadd.perm h)
    · refine ⟨a, l₁, l₂, rfl, hitems.trans hadd.items, h'.valid.items_eq.trans ht', ?_, hb, ha⟩
      rw [entry, hadd.key, hadd.value]
    · intro b hb' _
      rw [hitems] at hb'
      rw [entry, entry, (hadd.other b hb').1, (hadd.other b hb').2]
  | insertAt p k v =>
    obtain ⟨m', a, l₁, l₂, hrun, hadd⟩ := insertAt_spec h
      (hitems ▸ hop : p ∈ t.inorder ∨ p = endItem) k v
    obtain ⟨t', free', h', ht'⟩ := hadd.isMultiMap
    refine ⟨m', some a, by simp [Op.exec, hrun], ⟨t', free', h'⟩, ?_, ?_, ?_⟩
    · exact Multiset.coe_eq_coe.mpr (hadd.perm h)
    · refine ⟨a, l₁, l₂, rfl, hitems.trans hadd.items, h'.valid.items_eq.trans ht', ?_⟩
      rw [entry, hadd.key, hadd.value]
    · intro b hb' _
      rw [hitems] at hb'
      rw [entry, entry, (hadd.other b hb').1, (hadd.other b hb').2]
  | removeKey k =>
    obtain ⟨a, hfind, ⟨ha, rfl⟩ | ⟨rfl, hne⟩⟩ := h.valid.find h.sorted k
    · obtain ⟨l₁, l₂, ht⟩ := List.append_of_mem ha
      obtain ⟨m', t', hrun, hv', ht', hdata⟩ := h.valid.remove ht
      have h' := isMultiMap_of_remove h ht hv' ht' hdata
      have hne : a ≠ endItem := h.valid.ne_endItem (Or.inl ha)
      refine ⟨m', none, ?_, ⟨t', _, h'⟩, ?_, ?_, fun b _ _ => entry_eq_of_sameData hdata b⟩
      · simp only [Op.exec, ItemTree.removeKey, hfind, Option.bind_eq_bind, Option.bind_some,
          if_neg hne, hrun]
      · exact Or.inl ⟨_, (contents_of_remove h h' ht ht' hdata).1⟩
      · exact ⟨rfl, Or.inl ⟨a, l₁, l₂, rfl, hitems.trans ht, hv'.items_eq.trans ht'⟩⟩
    · refine ⟨m, none, by simp [Op.exec, ItemTree.removeKey, hfind], ⟨t, free, h⟩, ?_, ?_,
        fun _ _ _ => rfl⟩
      · refine Or.inr ⟨?_, rfl⟩
        intro e he
        rw [Multiset.mem_coe, contents_eq_map, hitems] at he
        obtain ⟨b, hb, rfl⟩ := List.mem_map.mp he
        exact hne b hb
      · exact ⟨rfl, Or.inr ⟨hitems ▸ hne, rfl⟩⟩
  | remove it =>
    obtain ⟨l₁, l₂, ht⟩ := List.append_of_mem (hitems ▸ hop : it ∈ t.inorder)
    obtain ⟨m', t', hrun, hv', ht', hdata⟩ := h.valid.remove ht
    have h' := isMultiMap_of_remove h ht hv' ht' hdata
    exact ⟨m', _, hrun, ⟨t', _, h'⟩, (contents_of_remove h h' ht ht' hdata).1,
      ⟨l₁, l₂, hitems.trans ht, hv'.items_eq.trans ht', rfl⟩,
      fun b _ _ => entry_eq_of_sameData hdata b⟩
  | removeFront =>
    cases ht : t.inorder with
    | nil => exact absurd (hitems.trans ht) hop
    | cons a l =>
      obtain ⟨m', t', hrun, hv', ht', hdata⟩ := h.valid.removeFront ht
      have ht₀ : t.inorder = [] ++ a :: l := ht
      have h' := isMultiMap_of_remove h ht₀ hv' ht' hdata
      obtain ⟨hcons, hall⟩ := contents_of_remove h h' ht₀ ht' hdata
      refine ⟨m', _, hrun, ⟨t', _, h'⟩, ⟨entry m a, hcons, fun e he => ?_⟩, ⟨a, ?_, ?_⟩,
        fun b _ _ => entry_eq_of_sameData hdata b⟩
      · obtain ⟨b, hb, rfl⟩ := hall e he
        exact key_le h [a] l ht (by simp) hb
      · rw [hitems, ht, hv'.items_eq, ht']
      · rw [hv'.items_eq, ht']
  | removeBack =>
    rcases List.eq_nil_or_concat t.inorder with ht | ⟨l, a, ht⟩
    · exact absurd (hitems.trans ht) hop
    · rw [List.concat_eq_append] at ht
      obtain ⟨m', t', hrun, hv', ht', hdata⟩ := h.valid.removeBack ht
      have ht₁ : t'.inorder = l ++ [] := ht'.trans (List.append_nil l).symm
      have h' := isMultiMap_of_remove h ht hv' ht₁ hdata
      obtain ⟨hcons, hall⟩ := contents_of_remove h h' ht ht₁ hdata
      refine ⟨m', _, hrun, ⟨t', _, h'⟩, ⟨entry m a, hcons, fun e he => ?_⟩, ⟨a, ?_, rfl⟩,
        fun b _ _ => entry_eq_of_sameData hdata b⟩
      · obtain ⟨b, hb, rfl⟩ := hall e he
        rw [List.append_nil] at hb
        exact key_le h l [a] ht hb (by simp)
      · rw [hitems, ht, hv'.items_eq, ht']
  | clear =>
    obtain ⟨m', free', hrun, hv'⟩ := h.valid.clear
    have hnil : m'.items = [] := hv'.items_eq
    refine ⟨m', none, by simp [Op.exec, hrun], ⟨nil, free', hv', List.Pairwise.nil⟩, ?_,
      ⟨rfl, hnil⟩, fun b _ hb => ?_⟩
    · rw [Op.call, Call.Does, contents_eq_map, hnil, List.map_nil, Multiset.coe_nil]
    · rw [hnil] at hb
      exact absurd hb List.not_mem_nil

/-! ## Runs -/

/-- A multimap with the entries `s`: what all its fields say, over the tree `t` they describe -/
structure Correct (m : ItemTree T V) (t : AvlTree ℕ) (s : Multiset (T × V)) : Prop where
  links : Represents m [] t
  ordered : t.Ordered fun a b => (m.mem a).key ≤ (m.mem b).key
  heights : t.Exact
  chain : Chain m.nextOf m.prevOf none (t.inorder ++ [endItem])
  size : m.size = t.inorder.length
  contents : (m.contents : Multiset (T × V)) = s

lemma IsMultiMap.correct {m : ItemTree T V} {t : AvlTree ℕ} {free : List ℕ}
    (h : IsMultiMap m t free) : Correct m t m.contents where
  links := h.valid.links
  ordered := ordered_of_pairwise (List.pairwise_map.mp h.sorted)
  heights := h.valid.balanced.exact
  chain := h.valid.chain
  size := h.valid.size
  contents := rfl

variable [Inhabited T] [Inhabited V]

/-- A multimap that keeps the invariant, and the multiset of its entries -/
def Refines (m : ItemTree T V) (s : Multiset (T × V)) : Prop :=
  (∃ t free, IsMultiMap m t free) ∧ s = m.contents

/-- A run is a run of the multiset. -/
lemma Run.refines {cs : List (Call T V)} {m : ItemTree T V} (h : (system T V).Run cs m) :
    ∃ s, (reference T V).Run cs s ∧ Refines m s := by
  refine h.simulation ?_ ?_
  · rintro m rfl
    exact ⟨0, rfl, ⟨nil, [], valid_empty, List.Pairwise.nil⟩, rfl⟩
  · rintro m s cs m' ⟨⟨t, free, hm⟩, rfl⟩ ⟨op, r, hop, hrun, rfl⟩
    obtain ⟨m₁, r₁, hrun₁, hex⟩ := exec_spec hm op hop
    obtain ⟨rfl, rfl⟩ : m₁ = m' ∧ r₁ = r := by simpa using hrun₁.symm.trans hrun
    exact ⟨m₁.contents, ⟨op.call m, hex.does, rfl⟩, hex.isMultiMap, rfl⟩

/-- **Every run of a multimap.**  After any operations, starting from an empty multimap, the links,
    heights, order, chain and size are right, and the contents are those of a multiset that was told
    the same.  Every further operation returns, moves the items as it should, and leaves the entries
    of all others as they are. -/
theorem multiMap_runs {cs : List (Call T V)} {m : ItemTree T V} (h : (system T V).Run cs m) :
    ∃ t s, (reference T V).Run cs s ∧ Correct m t s ∧ ∀ op : Op T V, op.Allowed m →
      ∃ m' r, op.exec m = some (m', r) ∧ op.Moves m m' r
        ∧ ∀ b ∈ m.items, b ∈ m'.items → entry m' b = entry m b := by
  obtain ⟨s, hrun, ⟨t, free, hm⟩, rfl⟩ := Run.refines h
  refine ⟨t, _, hrun, hm.correct, fun op hop => ?_⟩
  obtain ⟨m', r, hexec, hex⟩ := exec_spec hm op hop
  exact ⟨m', r, hexec, hex.moves, hex.kept⟩

/-- Three insertions, two of them of the same key, which turn the tree, a removal by key, and an
    insertion with a hint; then the first entry is removed. -/
theorem multiMap_runs_turned : ∃ (m : ItemTree ℕ ℕ) (t : AvlTree ℕ) (s : Multiset (ℕ × ℕ)),
    (reference ℕ ℕ).Run [.insert (1, 10), .insert (1, 11), .insert (1, 12), .removeKey 1,
      .insert (0, 9)] s ∧ m.contents = [(0, 9), (1, 10), (1, 12)] ∧ Correct m t s ∧
    ∃ m' r, Op.exec m .removeFront = some (m', r) ∧ Op.Moves m m' r .removeFront := by
  obtain ⟨m, _, hrun, hp⟩ := exists_run
    [.insert 1 10, .insert 1 11, .insert 1 12, .removeKey 1, .insertAt 4 0 9]
    (p := fun r => r.1.contents = [(0, 9), (1, 10), (1, 12)] ∧ r.1.items ≠ [] ∧
      r.2 = [.insert (1, 10), .insert (1, 11), .insert (1, 12), .removeKey 1, .insert (0, 9)])
    (by decide)
  obtain ⟨hcontents, hitems, rfl⟩ := of_decide_eq_true hp
  obtain ⟨t, s, href, hcorrect, hall⟩ := multiMap_runs hrun
  obtain ⟨m', r, hexec, hmoves, -⟩ := hall .removeFront hitems
  exact ⟨m, t, s, href, hcontents, hcorrect, m', r, hexec, hmoves⟩

end MultiMap

end Nstd
