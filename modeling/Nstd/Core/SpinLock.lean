import Nstd.Core.Lists

/-!
# A flag that is a lock

Threads test and set a flag, and the one that found it clear clears it again.

* `Locked` — the flag is set just when one thread holds it, and no two threads do.
* `Locked.same`, `Locked.acquire`, `Locked.release` — what the steps of a thread preserve.
* **`Locked.alone`** — mutual exclusion.
-/

namespace Nstd.SpinLock

variable {P : Type} {holds : P → Bool} {flag : Bool} {points : List P} {i j : ℕ} {p q : P}

/-- As many threads hold the lock as the flag says: one or none. -/
def Locked (holds : P → Bool) (flag : Bool) (points : List P) : Prop :=
  points.countP holds = flag.toNat

/-- A thread that comes -/
theorem Locked.append (h : Locked holds flag points) (hp : holds p = false) :
    Locked holds flag (points ++ [p]) := by
  rw [Locked, List.countP_append, List.countP_singleton, hp]
  exact h

/-- A thread goes on, inside or outside. -/
theorem Locked.same (h : Locked holds flag points) (hp : points[i]? = some p)
    (hsame : holds q = holds p) : Locked holds flag (points.set i q) := by
  have hcount := countP_set_add hp holds q
  rw [Locked] at h ⊢
  rw [hsame] at hcount
  omega

/-- **The lock is taken** by a thread that finds the flag clear. -/
theorem Locked.acquire (h : Locked holds false points) (hp : points[i]? = some p)
    (hout : holds p = false) (hin : holds q = true) : Locked holds true (points.set i q) := by
  have hcount := countP_set_add hp holds q
  rw [Locked] at h ⊢
  rw [hout, hin] at hcount
  omega

/-- **The lock is given back** by the thread that holds it. -/
theorem Locked.release (h : Locked holds flag points) (hp : points[i]? = some p)
    (hin : holds p = true) (hout : holds q = false) : Locked holds false (points.set i q) := by
  have hcount := countP_set_add hp holds q
  rw [Locked] at h ⊢
  rw [hin, hout, h] at hcount
  cases flag <;> simp at hcount ⊢
  omega

/-- Two threads that hold the lock would count twice. -/
lemma two_le_countP (hlt : i < j) (hp : points[i]? = some p) (hq : points[j]? = some q)
    (hholds : holds p = true) (hholds' : holds q = true) : 2 ≤ points.countP holds := by
  obtain ⟨hi, rfl⟩ := List.getElem?_eq_some_iff.mp hp
  have hrest : (points.drop (i + 1))[j - (i + 1)]? = some q := by
    rw [List.getElem?_drop, Nat.add_sub_cancel' hlt]
    exact hq
  have hpos : 0 < (points.drop (i + 1)).countP holds :=
    List.countP_pos_iff.mpr ⟨q, List.mem_of_getElem? hrest, hholds'⟩
  have hsplit := congrArg (List.countP holds) (List.take_append_drop i points)
  rw [List.countP_append, List.drop_eq_getElem_cons hi, List.countP_cons_of_pos hholds] at hsplit
  omega

/-- **Mutual exclusion** -/
theorem Locked.alone (h : Locked holds flag points) (hp : points[i]? = some p)
    (hq : points[j]? = some q) (hholds : holds p = true) (hholds' : holds q = true) : i = j := by
  have hle : points.countP holds ≤ 1 := by
    rw [h]
    exact Bool.toNat_le flag
  rcases Nat.lt_trichotomy i j with hlt | heq | hlt
  · have := two_le_countP hlt hp hq hholds hholds'
    omega
  · exact heq
  · have := two_le_countP hlt hq hp hholds' hholds
    omega

/-- If the flag is set, somebody holds the lock. -/
theorem Locked.holder (h : Locked holds true points) :
    ∃ (i : ℕ) (p : P), points[i]? = some p ∧ holds p = true := by
  have hpos : 0 < points.countP holds := by
    rw [h]
    exact Nat.one_pos
  obtain ⟨p, hmem, hp⟩ := List.countP_pos_iff.mp hpos
  obtain ⟨i, hi⟩ := List.getElem?_of_mem hmem
  exact ⟨i, p, hi, hp⟩

end Nstd.SpinLock
