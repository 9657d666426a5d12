import Mathlib.Data.List.Basic
import Mathlib.Tactic.Lemma
import Mathlib.Tactic.SplitIfs

/-!
# Maps in insertion order

A map is the list of its entries, oldest first.

* `find?`, `append`, `remove` — a key is looked up, gets a value, goes away.
* `find?_append`, `find?_remove` — what is looked up afterwards.
* `keys_append`, `keys_remove` — which keys there are, and in which order.
* `find?_middle`, `append_middle`, `remove_middle` — the same of an entry between two others.
-/

namespace Nstd.InsertionMap

variable {K V : Type}

/-- The keys, oldest first -/
def keys (m : List (K × V)) : List K := m.map Prod.fst

@[simp] lemma keys_cons (e : K × V) (m : List (K × V)) : keys (e :: m) = e.1 :: keys m := rfl

variable [DecidableEq K]

/-- The value of a key -/
def find? (key : K) : List (K × V) → Option V
  | [] => none
  | e :: m => if e.1 = key then some e.2 else find? key m

/-- A new key goes to the end, a key that is there has its value replaced. -/
def append (key : K) (value : V) : List (K × V) → List (K × V)
  | [] => [(key, value)]
  | e :: m => if e.1 = key then (key, value) :: m else e :: append key value m

/-- The entry of a key goes away. -/
def remove (key : K) (m : List (K × V)) : List (K × V) := m.filter fun e => e.1 ≠ key

@[simp] lemma find?_nil (k : K) : find? k ([] : List (K × V)) = none := rfl

lemma find?_cons (k : K) (e : K × V) (m : List (K × V)) :
    find? k (e :: m) = if e.1 = k then some e.2 else find? k m := rfl

lemma find?_append (k k' : K) (v : V) (m : List (K × V)) :
    find? k' (append k v m) = if k' = k then some v else find? k' m := by
  induction m with
  | nil => simp [append, find?_cons, eq_comm]
  | cons e m ih =>
    by_cases he : e.1 = k
    · rw [append, if_pos he, find?_cons, find?_cons, he]
      by_cases h : k' = k
      · simp [h]
      · simp [h, Ne.symm h]
    · rw [append, if_neg he, find?_cons, find?_cons, ih]
      by_cases h : k' = k
      · subst h
        simp [he]
      · rw [if_neg h, if_neg h]

lemma find?_remove (k k' : K) (m : List (K × V)) :
    find? k' (remove k m) = if k' = k then none else find? k' m := by
  induction m with
  | nil => simp [remove]
  | cons e m ih =>
    by_cases he : e.1 = k
    · have hremove : remove k (e :: m) = remove k m := by simp [remove, he]
      rw [hremove, ih, find?_cons, he]
      by_cases h : k' = k
      · simp [h]
      · simp [h, Ne.symm h]
    · have hremove : remove k (e :: m) = e :: remove k m := by simp [remove, he]
      rw [hremove, find?_cons, find?_cons, ih]
      by_cases h : k' = k
      · subst h
        simp [he]
      · rw [if_neg h, if_neg h]

lemma find?_eq_none_iff {k : K} {m : List (K × V)} : find? k m = none ↔ k ∉ keys m := by
  induction m with
  | nil => simp [find?, keys]
  | cons e m ih =>
    rw [find?_cons, keys_cons, List.mem_cons, not_or, ← ih]
    by_cases he : e.1 = k
    · simp [he]
    · simp [he, Ne.symm he]

lemma keys_append (k : K) (v : V) (m : List (K × V)) :
    keys (append k v m) = if k ∈ keys m then keys m else keys m ++ [k] := by
  induction m with
  | nil => simp [append, keys]
  | cons e m ih =>
    rw [append]
    by_cases he : e.1 = k
    · simp [he]
    · rw [if_neg he, keys_cons, keys_cons, ih]
      by_cases hk : k ∈ keys m
      · rw [if_pos hk, if_pos (List.mem_cons_of_mem _ hk)]
      · rw [if_neg hk, if_neg (by simp [hk, Ne.symm he]), List.cons_append]

lemma keys_remove (k : K) (m : List (K × V)) : keys (remove k m) = (keys m).filter (· ≠ k) := by
  rw [keys, remove, keys, List.filter_map]
  rfl

lemma nodup_append {k : K} {m : List (K × V)} (h : (keys m).Nodup) (v : V) :
    (keys (append k v m)).Nodup := by
  rw [keys_append]
  split_ifs with hk
  · exact h
  · rw [List.nodup_append]
    refine ⟨h, by simp, fun a ha b hb => ?_⟩
    rintro rfl
    exact hk (List.mem_singleton.mp hb ▸ ha)

/-- A new key goes to the end. -/
lemma append_of_notMem {k : K} {m : List (K × V)} (h : k ∉ keys m) (v : V) :
    append k v m = m ++ [(k, v)] := by
  induction m with
  | nil => rfl
  | cons e m ih =>
    rw [keys_cons, List.mem_cons, not_or] at h
    rw [append, if_neg (Ne.symm h.1), ih h.2, List.cons_append]

/-! ## An entry between others -/

section Middle

variable {k : K} {m₁ : List (K × V)}

lemma find?_middle (h : k ∉ keys m₁) (v : V) (m₂ : List (K × V)) :
    find? k (m₁ ++ (k, v) :: m₂) = some v := by
  induction m₁ with
  | nil => rw [List.nil_append, find?_cons, if_pos rfl]
  | cons e m₁ ih =>
    rw [keys_cons, List.mem_cons, not_or] at h
    rw [List.cons_append, find?_cons, if_neg (Ne.symm h.1), ih h.2]

lemma append_middle (h : k ∉ keys m₁) (v v' : V) (m₂ : List (K × V)) :
    append k v (m₁ ++ (k, v') :: m₂) = m₁ ++ (k, v) :: m₂ := by
  induction m₁ with
  | nil => rw [List.nil_append, append, if_pos rfl, List.nil_append]
  | cons e m₁ ih =>
    rw [keys_cons, List.mem_cons, not_or] at h
    rw [List.cons_append, append, if_neg (Ne.symm h.1), ih h.2, List.cons_append]

lemma remove_of_notMem {m : List (K × V)} (h : k ∉ keys m) : remove k m = m := by
  refine List.filter_eq_self.mpr fun e he => decide_eq_true ?_
  rintro rfl
  exact h (List.mem_map_of_mem he)

lemma remove_middle (h : k ∉ keys m₁) (v : V) {m₂ : List (K × V)} (h₂ : k ∉ keys m₂) :
    remove k (m₁ ++ (k, v) :: m₂) = m₁ ++ m₂ := by
  have hmiddle : remove k ((k, v) :: m₂) = remove k m₂ := by simp [remove]
  rw [remove, List.filter_append, ← remove, ← remove, hmiddle, remove_of_notMem h,
    remove_of_notMem h₂]

end Middle

end Nstd.InsertionMap
