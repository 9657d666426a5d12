import Mathlib.Data.List.Basic

/-!
# Arrays of a fixed size

Their contents are anything before the first write.

* `copy`, `zero` — a part of the array is written.
* `copy_toList` — what is in front of the part, the part, and what is behind it.
* `Same` — two arrays agree in front of an index.
-/

namespace Nstd.FixedArray

variable {α : Type} {n : ℕ}

/-- `src` is written from the index `i` on. -/
def copy (dest : Vector α n) (i : ℕ) : List α → Vector α n
  | [] => dest
  | a :: src => copy (dest.setIfInBounds i a) (i + 1) src

/-- `count` zeros are written from the index `i` on. -/
def zero [OfNat α 0] (dest : Vector α n) (i count : ℕ) : Vector α n :=
  copy dest i (List.replicate count 0)

lemma copy_toList (dest : Vector α n) (i : ℕ) {src : List α} (h : i + src.length ≤ n) :
    (copy dest i src).toList
      = dest.toList.take i ++ src ++ dest.toList.drop (i + src.length) := by
  induction src generalizing dest i with
  | nil => simp [copy]
  | cons a src ih =>
    have hlen : i + 1 + src.length ≤ n := by
      rw [List.length_cons] at h
      omega
    have hi : i < dest.toList.length := by
      rw [Vector.length_toList]
      omega
    have hset : (dest.setIfInBounds i a).toList = dest.toList.set i a := by
      simp [Vector.toList, Vector.setIfInBounds]
    rw [copy, ih _ _ hlen, hset, List.take_succ_eq_append_getElem (by simpa using hi)]
    simp [List.drop_set_of_lt, List.take_set_of_le, Nat.add_comm, Nat.add_left_comm,
      show i < i + (src.length + 1) by omega]

/-! ## Agreement -/

/-- In front of the index `i`, the arrays hold the same. -/
def Same (i : ℕ) (a b : Vector α n) : Prop := ∀ (j : ℕ) (h : j < n), j < i → a[j] = b[j]

variable {i : ℕ} {a b : Vector α n}

lemma Same.set (h : Same i a b) (c : α) : Same (i + 1) (a.setIfInBounds i c) (b.setIfInBounds i c) := by
  intro j hj hlt
  rw [Vector.getElem_setIfInBounds, Vector.getElem_setIfInBounds]
  split
  · rfl
  · exact h j hj (by omega)

lemma Same.copy (h : Same i a b) (src : List α) :
    Same (i + src.length) (copy a i src) (copy b i src) := by
  induction src generalizing i a b with
  | nil => exact h
  | cons c src ih =>
    have hset := ih (h.set c)
    rwa [show i + 1 + src.length = i + (c :: src).length by simp; omega] at hset

/-- Arrays that agree up to their end are equal. -/
lemma Same.eq (h : Same i a b) (hn : n ≤ i) : a = b :=
  Vector.ext fun j hj => h j hj (by omega)

end Nstd.FixedArray
