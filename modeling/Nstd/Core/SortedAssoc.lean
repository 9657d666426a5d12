import Mathlib.Data.List.Basic
import Mathlib.Order.Defs.LinearOrder
import Mathlib.Order.Lattice
import Mathlib.Tactic.Common
import Mathlib.Tactic.SplitIfs

/-!
# Finite maps as sorted lists

The reference for anything that keeps its entries in key order: a finite map is the list of its
entries, strictly sorted by key, so that equal lists are equal maps.

* `insert`, `erase` — one entry written or dropped; both keep the list sorted.
* `insert_between`, `insert_at`, `erase_at` — what they do to a list split at the right place,
  which is how a search tree comes to it.
* `ext_get` — a map is what its keys have as values.
* `SortedMap` — such a list with its order as a field.
-/

namespace SortedAssoc

variable {K V : Type} [LinearOrder K]

/-- Strictly sorted by key. -/
def Sorted (l : List (K × V)) : Prop := (l.map Prod.fst).Pairwise (· < ·)

/-- Write one entry. -/
def insert (k : K) (v : V) : List (K × V) → List (K × V)
  | [] => [(k, v)]
  | e :: l => if k < e.1 then (k, v) :: e :: l else if k = e.1 then (k, v) :: l else e :: insert k v l

/-- The value of a key. -/
def get (k : K) : List (K × V) → Option V
  | [] => none
  | e :: l => if k = e.1 then some e.2 else get k l

/-- Drop the entry of a key. -/
def erase (k : K) (l : List (K × V)) : List (K × V) := l.filter fun e => e.1 ≠ k

/-- Write all entries of a list, one after the other. -/
def insertAll (l new : List (K × V)) : List (K × V) := new.foldl (fun l e => insert e.1 e.2 l) l

lemma sorted_nil : Sorted ([] : List (K × V)) := List.Pairwise.nil

lemma sorted_append {l₁ l₂ : List (K × V)} : Sorted (l₁ ++ l₂) ↔
    Sorted l₁ ∧ Sorted l₂ ∧ ∀ e₁ ∈ l₁, ∀ e₂ ∈ l₂, e₁.1 < e₂.1 := by
  simp only [Sorted, List.map_append, List.pairwise_append, List.mem_map,
    forall_exists_index, and_imp, forall_apply_eq_imp_iff₂]

lemma sorted_cons {e : K × V} {l : List (K × V)} :
    Sorted (e :: l) ↔ (∀ e' ∈ l, e.1 < e'.1) ∧ Sorted l := by
  simp only [Sorted, List.map_cons, List.pairwise_cons, List.mem_map, forall_exists_index,
    and_imp, forall_apply_eq_imp_iff₂]

lemma fst_of_mem_insert {l : List (K × V)} {k : K} {v : V} {e : K × V} (h : e ∈ insert k v l) :
    e.1 = k ∨ e ∈ l := by
  induction l with
  | nil => simp only [insert, List.mem_singleton] at h; simp [h]
  | cons e' l ih =>
    rw [insert] at h
    split_ifs at h
    · rcases List.mem_cons.mp h with rfl | h
      · exact Or.inl rfl
      · exact Or.inr h
    · rcases List.mem_cons.mp h with rfl | h
      · exact Or.inl rfl
      · exact Or.inr (List.mem_cons_of_mem _ h)
    · rcases List.mem_cons.mp h with rfl | h
      · exact Or.inr List.mem_cons_self
      · exact (ih h).imp_right (List.mem_cons_of_mem _)

/-- Writing keeps the list sorted. -/
theorem sorted_insert {l : List (K × V)} (h : Sorted l) (k : K) (v : V) : Sorted (insert k v l) := by
  induction l with
  | nil => exact List.pairwise_singleton _ _
  | cons e l ih =>
    obtain ⟨h₁, h₂⟩ := sorted_cons.mp h
    rw [insert]
    split_ifs with hlt heq
    · refine sorted_cons.mpr ⟨fun e' he' => ?_, h⟩
      rcases List.mem_cons.mp he' with rfl | he'
      · exact hlt
      · exact hlt.trans (h₁ e' he')
    · exact sorted_cons.mpr ⟨fun e' he' => heq ▸ h₁ e' he', h₂⟩
    · refine sorted_cons.mpr ⟨fun e' he' => ?_, ih h₂⟩
      rcases fst_of_mem_insert he' with he' | he'
      · rw [he']; exact lt_of_le_of_ne (not_lt.mp hlt) (Ne.symm heq)
      · exact h₁ e' he'

/-- A key between two halves goes between them. -/
lemma insert_between {l₁ l₂ : List (K × V)} {k : K} (v : V) (h₁ : ∀ e ∈ l₁, e.1 < k)
    (h₂ : ∀ e ∈ l₂, k < e.1) : insert k v (l₁ ++ l₂) = l₁ ++ (k, v) :: l₂ := by
  induction l₁ with
  | nil =>
    cases l₂ with
    | nil => rfl
    | cons e l => rw [List.nil_append, insert, if_pos (h₂ e (by simp)), List.nil_append]
  | cons e l ih =>
    have he : e.1 < k := h₁ e (by simp)
    rw [List.cons_append, insert, if_neg he.not_gt, if_neg he.ne', ih fun e' h => h₁ e' (by simp [h]),
      List.cons_append]

/-- A key that is there has its value replaced. -/
lemma insert_at {l₁ l₂ : List (K × V)} {k : K} (v v' : V) (h₁ : ∀ e ∈ l₁, e.1 < k) :
    insert k v (l₁ ++ (k, v') :: l₂) = l₁ ++ (k, v) :: l₂ := by
  induction l₁ with
  | nil => rw [List.nil_append, insert, if_neg (lt_irrefl k), if_pos rfl, List.nil_append]
  | cons e l ih =>
    have he : e.1 < k := h₁ e (by simp)
    rw [List.cons_append, insert, if_neg he.not_gt, if_neg he.ne', ih fun e' h => h₁ e' (by simp [h]),
      List.cons_append]

/-- Dropping a key that is there. -/
lemma erase_at {l₁ l₂ : List (K × V)} {k : K} {v : V} (h : Sorted (l₁ ++ (k, v) :: l₂)) :
    erase k (l₁ ++ (k, v) :: l₂) = l₁ ++ l₂ := by
  obtain ⟨-, h₂, h₁⟩ := sorted_append.mp h
  rw [erase, List.filter_append, List.filter_cons_of_neg (by simp),
    List.filter_eq_self.mpr, List.filter_eq_self.mpr]
  · intro e he
    simpa using ((sorted_cons.mp h₂).1 e he).ne'
  · intro e he
    simpa using (h₁ e he (k, v) (by simp)).ne

/-- Dropping a key that is not there. -/
lemma erase_of_forall_ne {l : List (K × V)} {k : K} (h : ∀ e ∈ l, e.1 ≠ k) : erase k l = l := by
  rw [erase, List.filter_eq_self]
  intro e he
  simpa using h e he

/-- Writing an entry that is there changes nothing. -/
lemma insert_of_mem {l : List (K × V)} {k : K} {v : V} (hl : Sorted l) (h : (k, v) ∈ l) :
    insert k v l = l := by
  obtain ⟨l₁, l₂, rfl⟩ := List.append_of_mem h
  exact insert_at v v fun e he => (sorted_append.mp hl).2.2 e he (k, v) (by simp)

/-- Writing a map's own entries into it changes nothing. -/
lemma insertAll_of_subset {l new : List (K × V)} (hl : Sorted l) (h : ∀ e ∈ new, e ∈ l) :
    insertAll l new = l := by
  induction new with
  | nil => rfl
  | cons e new ih =>
    rw [insertAll, List.foldl_cons, insert_of_mem hl (h e (by simp))]
    exact ih fun e' he' => h e' (by simp [he'])

/-- Entries that come behind all others are appended. -/
lemma insertAll_behind {new : List (K × V)} : ∀ {l : List (K × V)}, Sorted (l ++ new) →
    insertAll l new = l ++ new := by
  induction new with
  | nil =>
    intro l _
    rw [List.append_nil]
    rfl
  | cons e new ih =>
    intro l hsorted
    obtain ⟨-, -, hlt⟩ := sorted_append.mp hsorted
    have hinsert : insert e.1 e.2 l = l ++ [e] := by
      have hnone : ∀ e' ∈ ([] : List (K × V)), e.1 < e'.1 := fun e' he' => absurd he' List.not_mem_nil
      have hbetween := insert_between e.2 (fun e' he' => hlt e' he' e List.mem_cons_self) hnone
      rwa [List.append_nil] at hbetween
    rw [insertAll, List.foldl_cons, hinsert]
    refine (ih (l := l ++ [e]) ?_).trans (by rw [List.append_assoc, List.singleton_append])
    rwa [List.append_assoc, List.singleton_append]

/-- Reading what was written. -/
@[simp] lemma get_insert (k k' : K) (v : V) (l : List (K × V)) :
    get k' (insert k v l) = if k' = k then some v else get k' l := by
  induction l with
  | nil => simp [insert, get]
  | cons e l ih =>
    rw [insert]
    by_cases hlt : k < e.1
    · rw [if_pos hlt, get]
    · rw [if_neg hlt]
      by_cases heq : k = e.1
      · rw [if_pos heq, get, get]
        by_cases hk : k' = k
        · rw [if_pos hk, if_pos hk]
        · rw [if_neg hk, if_neg hk, if_neg (heq ▸ hk)]
      · rw [if_neg heq, get, get, ih]
        by_cases hk : k' = k
        · rw [if_neg (hk ▸ heq), if_pos hk, if_pos hk]
        · rw [if_neg hk, if_neg hk]

lemma mem_of_get {l : List (K × V)} {k : K} {v : V} (h : get k l = some v) : (k, v) ∈ l := by
  induction l with
  | nil => simp [get] at h
  | cons e l ih =>
    rw [get] at h
    split_ifs at h with hk
    · obtain rfl := Option.some.inj h
      simp [hk]
    · exact List.mem_cons_of_mem _ (ih h)

lemma get_of_mem {l : List (K × V)} (hl : Sorted l) {k : K} {v : V} (h : (k, v) ∈ l) :
    get k l = some v := by
  induction l with
  | nil => simp at h
  | cons e l ih =>
    obtain ⟨h₁, h₂⟩ := sorted_cons.mp hl
    rw [get]
    rcases List.mem_cons.mp h with rfl | h
    · rw [if_pos rfl]
    · rw [if_neg (h₁ _ h).ne', ih h₂ h]

lemma get_eq_some_iff {l : List (K × V)} (hl : Sorted l) {k : K} {v : V} :
    get k l = some v ↔ (k, v) ∈ l :=
  ⟨mem_of_get, get_of_mem hl⟩

lemma sorted_erase {l : List (K × V)} (hl : Sorted l) (k : K) : Sorted (erase k l) :=
  hl.sublist (List.filter_sublist.map _)

/-- Reading what is left. -/
lemma get_erase {l : List (K × V)} (hl : Sorted l) (k k' : K) :
    get k' (erase k l) = if k' = k then none else get k' l := by
  ext v
  rw [get_eq_some_iff (sorted_erase hl k), erase, List.mem_filter]
  by_cases hk : k' = k
  · simp [hk]
  · simp [hk, get_eq_some_iff hl]

lemma sorted_insertAll {l : List (K × V)} (hl : Sorted l) (new : List (K × V)) :
    Sorted (insertAll l new) := by
  induction new generalizing l with
  | nil => exact hl
  | cons e new ih => exact ih (sorted_insert hl e.1 e.2)

lemma mem_of_mem_insert {l : List (K × V)} {k : K} {v : V} {e : K × V} (h : e ∈ insert k v l) :
    e = (k, v) ∨ e ∈ l := by
  induction l with
  | nil => exact Or.inl (List.mem_singleton.mp h)
  | cons e' l ih =>
    rw [insert] at h
    split_ifs at h
    · exact List.mem_cons.mp h
    · exact (List.mem_cons.mp h).imp_right (List.mem_cons_of_mem _)
    · rcases List.mem_cons.mp h with rfl | h
      · exact Or.inr List.mem_cons_self
      · exact (ih h).imp_right (List.mem_cons_of_mem _)

/-- What is there has been written, or was there. -/
lemma mem_of_mem_insertAll {l new : List (K × V)} {e : K × V} (h : e ∈ insertAll l new) :
    e ∈ new ∨ e ∈ l := by
  induction new generalizing l with
  | nil => exact Or.inr h
  | cons e' new ih =>
    rcases ih h with h | h
    · exact Or.inl (List.mem_cons_of_mem _ h)
    · rcases mem_of_mem_insert h with rfl | h
      · exact Or.inl List.mem_cons_self
      · exact Or.inr h

lemma length_insert_le (k : K) (v : V) (l : List (K × V)) : (insert k v l).length ≤ l.length + 1 := by
  induction l with
  | nil => exact le_rfl
  | cons e l ih =>
    rw [insert]
    split_ifs
    · exact le_rfl
    · exact Nat.le_succ _
    · exact Nat.succ_le_succ ih

lemma length_insertAll_le (l new : List (K × V)) : (insertAll l new).length ≤ l.length + new.length := by
  induction new generalizing l with
  | nil => exact le_rfl
  | cons e new ih =>
    refine (ih (insert e.1 e.2 l)).trans ?_
    have hinsert := length_insert_le e.1 e.2 l
    rw [List.length_cons]
    omega

lemma nodup_of_sorted {l : List (K × V)} (hl : Sorted l) : l.Nodup :=
  List.Pairwise.of_map Prod.fst (fun _ _ hne heq => hne (congrArg Prod.fst heq))
    (List.Pairwise.imp (fun h => ne_of_lt h) hl)

/-- **Maps in which every key has the same value** are the same. -/
theorem ext_get {l l' : List (K × V)} (hl : Sorted l) (hl' : Sorted l')
    (h : ∀ k, get k l = get k l') : l = l' := by
  refine List.Perm.eq_of_pairwise (fun e e' _ _ h₁ h₂ => absurd h₁ (not_lt.mpr (le_of_lt h₂)))
    (List.pairwise_map.mp hl) (List.pairwise_map.mp hl') ?_
  refine (List.perm_ext_iff_of_nodup (nodup_of_sorted hl) (nodup_of_sorted hl')).mpr fun e => ?_
  rw [← get_eq_some_iff hl, ← get_eq_some_iff hl', h]

end SortedAssoc

open SortedAssoc in
/-- A finite map: a list of entries together with the fact that it is sorted by key. -/
structure SortedMap (K V : Type) [LinearOrder K] where
  entries : List (K × V)
  sorted : Sorted entries

namespace SortedMap

open SortedAssoc

variable {K V : Type} [LinearOrder K]

/-- The map without entries. -/
def empty : SortedMap K V := ⟨[], List.Pairwise.nil⟩

/-- The value of a key. -/
def find (m : SortedMap K V) (k : K) : Option V := get k m.entries

/-- Write one entry. -/
def insert (m : SortedMap K V) (k : K) (v : V) : SortedMap K V :=
  ⟨SortedAssoc.insert k v m.entries, sorted_insert m.sorted k v⟩

@[simp] lemma find_empty (k : K) : (empty : SortedMap K V).find k = none := rfl

@[simp] lemma find_insert (m : SortedMap K V) (k k' : K) (v : V) :
    (m.insert k v).find k' = if k' = k then some v else m.find k' :=
  get_insert k k' v m.entries

end SortedMap
