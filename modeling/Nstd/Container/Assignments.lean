import Nstd.Container.ArrayAssign
import Nstd.Container.HashTableOther
import Nstd.Container.LinkedListSelf
import Nstd.Container.MapRuns

/-!
# The assignment operators of the containers

* `Map.assign` — `operator=` of a map; `Map.assignFrom_spec` — its loop, which inserts sorted entries.
* **`assign_iff`** — for a map, a list, a hash container and an array: an assignment is right just when
  another container is assigned that there is room for, or an empty one.

The code clears the target before it reads the source, so a container that is assigned to itself comes
out empty.
-/

namespace Nstd

open BalancedTree
open BalancedTree.AvlTree

namespace Map

open ItemTree

variable {T V : Type} [LinearOrder T]

/-- The loop of `operator=`; `other` is `none` when a map is assigned to itself. -/
def assignFrom (other : Option (ItemTree T V)) : ℕ → ItemTree T V → Ptr → Option (ItemTree T V)
  | 0, _, _ => none
  | fuel + 1, m, i =>
    if i = some endItem then some m
    else do
      let i ← i
      let (m, _) ← insert m ((other.getD m).mem i).key ((other.getD m).mem i).value
      assignFrom other fuel m ((other.getD m).mem i).next

/-- `operator=` -/
def assign (m : ItemTree T V) (other : Option (ItemTree T V)) : Option (ItemTree T V) := do
  let m ← m.clear
  assignFrom other ((other.getD m).size + 1) m (other.getD m).begin

/-- The loop over the items of another map -/
lemma assignFrom_spec {o : ItemTree T V} {u : AvlTree ℕ} {freeo : List ℕ} (ho : Valid o u freeo) :
    ∀ (rest : List ℕ) {p : List ℕ} {fuel : ℕ} {m : ItemTree T V} {t : AvlTree ℕ} {free : List ℕ}
      {l : List (T × V)}, IsMap m t free l → u.inorder = p ++ rest → rest.length < fuel →
      ∃ m' t' free', assignFrom (some o) fuel m (rest ++ [endItem]).head? = some m'
        ∧ IsMap m' t' free' (SortedAssoc.insertAll l (rest.map fun b =>
            ((o.mem b).key, (o.mem b).value))) := by
  intro rest
  induction rest with
  | nil =>
    rintro p (_ | fuel) m t free l h - hf
    · exact absurd hf (Nat.not_lt_zero _)
    · exact ⟨m, t, free, by simp [assignFrom], h⟩
  | cons i rest ih =>
    rintro p (_ | fuel) m t free l h hu hf
    · exact absurd hf (Nat.not_lt_zero _)
    · have hi : i ≠ endItem := ho.ne_endItem (Or.inl (by rw [hu]; simp))
      obtain ⟨m₁, a, hrun, hw⟩ := insert_spec h (o.mem i).key (o.mem i).value
      obtain ⟨t₁, free₁, h₁, -, -⟩ := hw.kept
      have hnext : (o.mem i).next = (rest ++ [endItem]).head? := ho.next_head hu
      obtain ⟨m₂, t₂, free₂, hrun₂, h₂⟩ := ih (p := p ++ [i]) h₁ (by rw [hu]; simp)
        (Nat.lt_of_succ_lt_succ hf)
      refine ⟨m₂, t₂, free₂, ?_, h₂⟩
      rw [assignFrom, List.cons_append, List.head?_cons, if_neg (by simpa using hi)]
      simp only [Option.bind_eq_bind, Option.bind_some, Option.getD_some, hrun, hnext, hrun₂]

/-- **What an assignment is for**: the entries are those that the other map has now. -/
def Assigning (m : ItemTree T V) (other : Option (ItemTree T V)) : Prop :=
  ∃ m' t free, assign m other = some m' ∧ IsMap m' t free (contents (other.getD m))

/-- Another map is assigned. -/
lemma assign_other {m o : ItemTree T V} {t u : AvlTree ℕ} {free freeo : List ℕ}
    {l lo : List (T × V)} (h : IsMap m t free l) (ho : IsMap o u freeo lo) :
    Assigning m (some o) := by
  obtain ⟨m₁, free₁, hclear, h₁⟩ := h.valid.clear
  have hempty : IsMap m₁ nil free₁ [] := ⟨h₁, rfl, List.Pairwise.nil⟩
  obtain ⟨i, tail, hi⟩ : ∃ i tail, u.inorder ++ [endItem] = i :: tail :=
    List.exists_cons_of_ne_nil (by simp)
  have hsize : u.inorder.length < o.size + 1 := ho.valid.size ▸ Nat.lt_succ_self _
  obtain ⟨m', t', free', hrun, h'⟩ := assignFrom_spec ho.valid u.inorder (p := []) hempty rfl hsize
  refine ⟨m', t', free', ?_, ?_⟩
  · rw [assign, hclear]
    simp only [Option.bind_eq_bind, Option.bind_some, Option.getD_some]
    rw [ho.valid.begin_eq hi, ← hrun, hi, List.head?_cons]
  · have hsorted : SortedAssoc.Sorted ([] ++ o.entries u) := ho.entries ▸ ho.sorted
    have hall := SortedAssoc.insertAll_behind hsorted
    rw [entries, List.nil_append] at hall
    rw [hall, ← entries, ho.entries] at h'
    rwa [Option.getD_some, ho.contents_eq]

/-- **A map that is assigned to itself** is cleared. -/
lemma assign_self {m : ItemTree T V} {t : AvlTree ℕ} {free : List ℕ} {l : List (T × V)}
    (h : IsMap m t free l) : ∃ m' free', assign m none = some m' ∧ IsMap m' nil free' [] := by
  obtain ⟨m₁, free₁, hclear, h₁⟩ := h.valid.clear
  refine ⟨m₁, free₁, ?_, h₁, rfl, List.Pairwise.nil⟩
  have hbegin : m₁.begin = some endItem := h₁.begin_eq rfl
  rw [assign, hclear]
  simp only [Option.bind_eq_bind, Option.bind_some, Option.getD_none, hbegin, assignFrom, if_true]

/-- **`operator=`** is right just when another map is assigned, or an empty one. -/
lemma assigning_iff {m : ItemTree T V} {t : AvlTree ℕ} {free : List ℕ} {l : List (T × V)}
    (h : IsMap m t free l) (other : Option (Map T V)) :
    Assigning m (other.map Map.tree) ↔ other ≠ none ∨ l = [] := by
  cases other with
  | some o =>
    obtain ⟨u, freeo, lo, ho⟩ := o.isMap
    exact ⟨fun _ => Or.inl (Option.some_ne_none _), fun _ => assign_other h ho⟩
  | none =>
    obtain ⟨m₁, free₁, hrun₁, h₁⟩ := assign_self h
    constructor
    · rintro ⟨m', t', free', hrun, h'⟩
      obtain rfl := Option.some_inj.mp (hrun₁.symm.trans hrun)
      have hcontents := h₁.contents_eq.symm.trans h'.contents_eq
      exact Or.inr ((hcontents.trans h.contents_eq).symm)
    · rintro (hne | rfl)
      · exact absurd rfl hne
      · refine ⟨m₁, nil, free₁, hrun₁, ?_⟩
        rwa [Option.map_none, Option.getD_none, h.contents_eq]

end Map

/-- **The assignment operators** of a map, of lists, of hash maps and hash sets, and of arrays are right
    just when another container is assigned, for whose keys there are buckets or for whose elements
    there are slots, or an empty one. -/
theorem assign_iff (T V : Type) :
    (∀ [LinearOrder T] (a : Map T V) (b : Option (Map T V)),
      Map.Assigning a.tree (b.map Map.tree) ↔ b ≠ none ∨ a.tree.contents = [])
    ∧ (∀ (s : LinkedList.State V) (r : LinkedList.Reference V), LinkedList.Refines s r →
      ∀ a < s.lists, ∀ b < s.lists,
        (LinkedList.Assigning s r a b ↔ b ≠ a ∨ r.entries b = []))
    ∧ (∀ [BEq T] [PartialEquivBEq T] [Inhabited V] (hash : T → ℕ),
      (∀ k k' : T, (k == k') = true → hash k = hash k') →
      ∀ (kind : HashTable.Kind) (s : HashTable.State T V) (r : EntryLists T V),
        HashTable.Refines hash s r → ∀ a < s.maps, ∀ b < s.maps,
          (HashTable.Assigning hash kind s r a b
            ↔ (b ≠ a ∧ ∀ e ∈ r.entries b, s.Fits hash a e.key) ∨ r.entries b = []))
    ∧ (∀ (sizeofT : ℕ) (s : ArrayData.State T) (a b : ℕ) (x y : ArrayData T)
      (l l' : List T), s a = some x → x.Holds l → s b = some y → y.Holds l' →
        (ArrayData.Assigning sizeofT s a b l'
          ↔ (b ≠ a ∧ l'.length ≤ x.slotsAfter sizeofT y.capacity) ∨ l' = [])) := by
  refine ⟨?_, ?_, ?_, ?_⟩
  · intro _ a b
    obtain ⟨t, free, l, h⟩ := a.isMap
    rw [h.contents_eq]
    exact Map.assigning_iff h b
  · intro s r h a ha b hb
    exact LinkedList.assigning_iff h ha hb
  · intro _ _ _ hash hhash kind s r h a ha b hb
    exact HashTable.assigning_iff hhash kind h ha hb
  · intro sizeofT s a b x y l l' hx hxl hy hyl
    exact ArrayData.assigning_iff sizeofT hx hxl hy hyl

/-- A list of one value that is assigned to another list -/
theorem assign_iff_list : ∃ (s : LinkedList.State ℕ) (r : LinkedList.Reference ℕ),
    (LinkedList.system ℕ).Run [(.create, none), (.append 0 7, some (.slot 0 3)), (.create, none)] s
    ∧ LinkedList.Refines s r ∧ LinkedList.Assigning s r 1 0 := by
  have hrun := System.Run.next (System.Run.next (System.Run.next (System.Run.start
    (show (LinkedList.system ℕ).initial LinkedList.State.empty from rfl)) ⟨.create, none, rfl,
      trivial, rfl⟩)
    ⟨.append 0 7, some (.slot 0 3), rfl, (Nat.one_pos : 0 < 1), rfl⟩)
    ⟨.create, none, rfl, trivial, rfl⟩
  obtain ⟨r, -, h⟩ := LinkedList.run_refines hrun
  refine ⟨_, r, hrun, h, ?_⟩
  exact ((assign_iff ℕ ℕ).2.1 _ r h 1 (show 1 < 2 by decide) 0 (show 0 < 2 by decide)).mpr
    (Or.inl Nat.zero_ne_one)

/-- The same list assigned to itself: the value is lost. -/
theorem assign_itself : ∃ (s s' : LinkedList.State ℕ) (r : LinkedList.Reference ℕ),
    (LinkedList.system ℕ).Run [(.create, none), (.append 0 7, some (.slot 0 3))] s
    ∧ LinkedList.Refines s r ∧ r.entries 0 ≠ [] ∧ s.assign 0 0 = some s'
    ∧ LinkedList.Refines s' (r.set 0 []) ∧ ¬ LinkedList.Assigning s r 0 0 := by
  have hrun := System.Run.next (System.Run.next (System.Run.start
    (show (LinkedList.system ℕ).initial LinkedList.State.empty from rfl)) ⟨.create, none, rfl,
      trivial, rfl⟩)
    ⟨.append 0 7, some (.slot 0 3), rfl, (Nat.one_pos : 0 < 1), rfl⟩
  obtain ⟨r, -, h⟩ := LinkedList.run_refines hrun
  have hthis : 0 < 1 := Nat.one_pos
  have hsize := h.length_eq hthis
  have hne : r.entries 0 ≠ [] := fun hnil => by
    rw [hnil] at hsize
    exact absurd hsize (by decide)
  obtain ⟨s', hassign, h'⟩ := h.assign_self hthis
  refine ⟨_, s', r, hrun, h, hne, hassign, h', fun hassigning => ?_⟩
  rcases (LinkedList.assigning_iff h hthis hthis).mp hassigning with hself | hnil
  · exact hself rfl
  · exact hne hnil

end Nstd
