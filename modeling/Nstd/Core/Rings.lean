import Mathlib.Algebra.Group.Fin.Basic
import Mathlib.Data.Int.ModEq
import Mathlib.Data.List.Basic
import Mathlib.Logic.Function.Basic
import Mathlib.Tactic.Ring

/-!
# Arrays used in a circle

Registers that change their names instead of their places, and the last words of a sequence.

* `Turned` — the registers, when they were renamed some times; `Turned.set`, `Turned.turn`.
* `Window` — the last words of a sequence; `Window.get`, `Window.set`.
* `chunks` — a list cut into pieces of one length; `chunks_flatten`.
-/

namespace Nstd.Rings

variable {α : Type} {n : ℕ}

lemma get_setIfInBounds (a : Vector α n) (i k : Fin n) (x : α) :
    (a.setIfInBounds i.val x).get k = if k = i then x else a.get k := by
  have hset : (a.setIfInBounds i.val x)[k.val] = if i.val = k.val then x else a[k.val] :=
    Vector.getElem_setIfInBounds k.isLt
  refine hset.trans (if_congr ?_ rfl rfl)
  exact ⟨fun h => Fin.ext h.symm, fun h => congrArg Fin.val h.symm⟩

lemma get_eq (a : Vector α n) (k : Fin n) : a.get k = a[k.val] := rfl

lemma get_ofFn (f : Fin n → α) (k : Fin n) : (Vector.ofFn f).get k = f k := by
  rw [get_eq, Vector.getElem_ofFn]

section Registers

variable [NeZero n]

/-- The registers `v`, when each has been renamed `t` times. -/
def Turned (t : Fin n) (T : Vector α n) (v : Fin n → α) : Prop := ∀ k, T.get (k - t) = v k

variable {t : Fin n} {T : Vector α n} {v : Fin n → α}

/-- A register is written. -/
lemma Turned.set (h : Turned t T v) (k : Fin n) (x : α) :
    Turned t (T.setIfInBounds (k - t).val x) (Function.update v k x) := by
  intro k'
  rw [get_setIfInBounds]
  by_cases hk : k' = k
  · rw [if_pos (by rw [hk]), hk, Function.update_self]
  · rw [if_neg fun heq => hk (sub_left_injective heq), Function.update_of_ne hk]
    exact h k'

/-- The registers are renamed: each is called what the next one was. -/
lemma Turned.turn (h : Turned t T v) : Turned (t + 1) T fun k => v (k - 1) := by
  intro k
  have hsub : k - (t + 1) = k - 1 - t := by rw [sub_sub, add_comm]
  rw [hsub]
  exact h (k - 1)

end Registers

section Words

variable [NeZero n] {w : ℕ → α} {t : ℕ} {W : Vector α n}

/-- The last words of the sequence `w` in front of the index `t` -/
def Window (w : ℕ → α) (t : ℕ) (W : Vector α n) : Prop :=
  ∀ s, s < t → t ≤ s + n → W.get (Fin.ofNat n s) = w s

lemma Window.zero (W : Vector α n) : Window w 0 W := fun s hs => absurd hs (Nat.not_lt_zero s)

/-- A word of the window, which is counted back from its end -/
lemma Window.get (h : Window w t W) {k : ℕ} (hpos : 0 < k) (hn : k ≤ n) (ht : k ≤ t) :
    W.get (Fin.ofNat n t - Fin.ofNat n k) = w (t - k) := by
  have hindex : Fin.ofNat n t - Fin.ofNat n k = Fin.ofNat n (t - k) := by
    rw [sub_eq_iff_eq_add]
    refine Fin.ext ?_
    rw [Fin.val_add, Fin.val_ofNat, Fin.val_ofNat, Fin.val_ofNat, ← Nat.add_mod,
      Nat.sub_add_cancel ht]
  rw [hindex]
  exact h (t - k) (by omega) (by omega)

/-- The next word takes the place of the oldest one. -/
lemma Window.set (h : Window w t W) : Window w (t + 1) (W.setIfInBounds (Fin.ofNat n t).val (w t)) := by
  intro s hs hle
  rw [get_setIfInBounds]
  by_cases heq : s = t
  · rw [if_pos (by rw [heq]), heq]
  · have hne : Fin.ofNat n s ≠ Fin.ofNat n t := by
      intro hmod
      have hval : s % n = t % n := congrArg Fin.val hmod
      have hdvd : n ∣ t - s := (Nat.modEq_iff_dvd' (by omega)).mp hval
      exact absurd (Nat.le_of_dvd (by omega) hdvd) (by omega)
    rw [if_neg hne]
    exact h s (by omega) (by omega)

end Words

/-! ## Pieces -/

/-- A list cut into pieces of length `n`, without what is left -/
def chunks (n : ℕ) (l : List α) : List (List α) :=
  (List.range (l.length / n)).map fun i => (l.drop (n * i)).take n

lemma length_flatten_of {bs : List (List α)} (h : ∀ b ∈ bs, b.length = n) :
    bs.flatten.length = n * bs.length := by
  induction bs with
  | nil => rfl
  | cons b bs ih =>
    rw [List.flatten_cons, List.length_append, h b List.mem_cons_self,
      ih fun b hb => h b (List.mem_cons_of_mem _ hb), List.length_cons]
    ring

/-- **Pieces of one length** are cut again where they were put together. -/
theorem chunks_flatten {bs : List (List α)} (hn : 0 < n) (h : ∀ b ∈ bs, b.length = n) :
    chunks n bs.flatten = bs := by
  rw [chunks, length_flatten_of h, Nat.mul_div_cancel_left _ hn]
  induction bs with
  | nil => rfl
  | cons b bs ih =>
    have hb := h b List.mem_cons_self
    have hrest := ih fun b hb => h b (List.mem_cons_of_mem _ hb)
    rw [List.length_cons, List.range_succ_eq_map, List.map_cons, List.map_map]
    refine congrArg₂ List.cons ?_ ?_
    · simp [← hb]
    · calc (List.range bs.length).map ((fun i => ((b :: bs).flatten.drop (n * i)).take n) ∘ Nat.succ)
          = (List.range bs.length).map fun i => (bs.flatten.drop (n * i)).take n :=
            List.map_congr_left fun i _ => by
              rw [Function.comp_apply, List.flatten_cons, Nat.succ_eq_add_one,
                show n * (i + 1) = b.length + n * i by rw [hb]; ring,
                List.drop_length_add_append]
        _ = bs := hrest

end Nstd.Rings
