import Mathlib.Data.List.Nodup
import Mathlib.Data.Nat.Notation
import Mathlib.Logic.Function.Basic
import Mathlib.Tactic.Common

/-!
# Items in blocks

Containers allocate items in blocks of four, and their objects have an item each that stands for the
end.

* `Addr` — where an item is.
* `slotsOf` — the items of a block.
* `Owners` — no two objects have the same block; `Owners.create`, `Owners.grow`, `Owners.push`,
  `Owners.permute` — there is one more object, an object gets new blocks or one of them, objects
  exchange their blocks.
-/

namespace Nstd

/-- `Item*`: the sentinel in an object, or one of the items of a block -/
inductive Addr
  | endItem (this : ℕ)
  | slot (block i : ℕ)
  deriving DecidableEq

/-- The items of a block -/
def slotsOf (block : ℕ) : List Addr :=
  [.slot block 0, .slot block 1, .slot block 2, .slot block 3]

lemma mem_slotsOf {a : Addr} {block : ℕ} (h : a ∈ slotsOf block) : ∃ i, a = .slot block i := by
  simp only [slotsOf, List.mem_cons, List.not_mem_nil, or_false] at h
  rcases h with rfl | rfl | rfl | rfl
  all_goals exact ⟨_, rfl⟩

lemma nodup_slots {blocks : List ℕ} (h : blocks.Nodup) : (blocks.flatMap slotsOf).Nodup := by
  rw [List.nodup_flatMap]
  refine ⟨fun b _ => by simp [slotsOf], h.imp ?_⟩
  intro b b' hne a ha ha'
  obtain ⟨i, rfl⟩ := mem_slotsOf ha
  obtain ⟨j, hj⟩ := mem_slotsOf ha'
  exact hne (Addr.slot.inj hj).1

/-- The blocks of `n` objects, of `limit` blocks that there are: no block is there twice. -/
structure Owners (n : ℕ) (blocks : ℕ → List ℕ) (limit : ℕ) : Prop where
  lt : ∀ x < n, ∀ b ∈ blocks x, b < limit
  nodup : ∀ x < n, (blocks x).Nodup
  owner : ∀ x < n, ∀ y < n, ∀ b ∈ blocks x, b ∈ blocks y → x = y

namespace Owners

variable {n limit : ℕ} {blocks : ℕ → List ℕ}

/-- One more object -/
lemma create (h : Owners n blocks limit) : Owners (n + 1) (Function.update blocks n []) limit := by
  have hblocks : ∀ x < n + 1, ∀ b ∈ Function.update blocks n [] x, x < n ∧ b ∈ blocks x := by
    intro x hx b hb
    by_cases hxn : x = n
    · rw [hxn, Function.update_self] at hb
      exact absurd hb List.not_mem_nil
    · rw [Function.update_of_ne hxn] at hb
      exact ⟨by omega, hb⟩
  refine ⟨fun x hx b hb => ?_, fun x hx => ?_, fun x hx y hy b hb hb' => ?_⟩
  · obtain ⟨hx, hb⟩ := hblocks x hx b hb
    exact h.lt x hx b hb
  · by_cases hxn : x = n
    · rw [hxn, Function.update_self]
      exact List.nodup_nil
    · rw [Function.update_of_ne hxn]
      exact h.nodup x (by omega)
  · obtain ⟨hx, hb⟩ := hblocks x hx b hb
    obtain ⟨hy, hb'⟩ := hblocks y hy b hb'
    exact h.owner x hx y hy b hb hb'

/-- **An object gets more blocks**, which are new. -/
lemma grow (h : Owners n blocks limit) {this limit' : ℕ} {blocks' : ℕ → List ℕ}
    (hother : ∀ x, x ≠ this → blocks' x = blocks x) (hlimit : limit ≤ limit')
    (hnodup : (blocks' this).Nodup)
    (hnew : ∀ b ∈ blocks' this, b ∈ blocks this ∨ limit ≤ b ∧ b < limit') :
    Owners n blocks' limit' := by
  have hblocks : ∀ x b, b ∈ blocks' x → b ∈ blocks x ∨ x = this ∧ limit ≤ b ∧ b < limit' := by
    intro x b hb
    by_cases hxt : x = this
    · rw [hxt] at hb ⊢
      exact (hnew b hb).imp_right fun hb => ⟨rfl, hb⟩
    · rw [hother x hxt] at hb
      exact Or.inl hb
  refine ⟨fun x hx b hb => ?_, fun x hx => ?_, fun x hx y hy b hb hb' => ?_⟩
  · rcases hblocks x b hb with hb | ⟨-, -, hb⟩
    · exact Nat.lt_of_lt_of_le (h.lt x hx b hb) hlimit
    · exact hb
  · by_cases hxt : x = this
    · rw [hxt]
      exact hnodup
    · rw [hother x hxt]
      exact h.nodup x hx
  · rcases hblocks x b hb with hb | ⟨hxt, hle, -⟩
    · rcases hblocks y b hb' with hb' | ⟨-, hle, -⟩
      · exact h.owner x hx y hy b hb hb'
      · exact absurd (h.lt x hx b hb) (Nat.not_lt_of_le hle)
    · rcases hblocks y b hb' with hb' | ⟨hyt, -⟩
      · exact absurd (h.lt y hy b hb') (Nat.not_lt_of_le hle)
      · rw [hxt, hyt]

/-- An object gets a new block. -/
lemma push (h : Owners n blocks limit) {this : ℕ} (hthis : this < n) :
    Owners n (Function.update blocks this (limit :: blocks this)) (limit + 1) := by
  refine h.grow (fun x hx => Function.update_of_ne hx ..) (Nat.le_succ limit) ?_ fun b hb => ?_
  · rw [Function.update_self]
    exact List.nodup_cons.mpr ⟨fun hb => Nat.lt_irrefl _ (h.lt this hthis _ hb), h.nodup this hthis⟩
  · rw [Function.update_self] at hb
    rcases List.mem_cons.mp hb with rfl | hb
    · exact Or.inr ⟨Nat.le_refl _, Nat.lt_succ_self _⟩
    · exact Or.inl hb

/-- Objects exchange their blocks. -/
lemma permute (h : Owners n blocks limit) {σ : ℕ → ℕ} (hσ : ∀ x < n, σ x < n)
    (hinj : Function.Injective σ) : Owners n (fun x => blocks (σ x)) limit :=
  ⟨fun x hx => h.lt _ (hσ x hx), fun x hx => h.nodup _ (hσ x hx),
    fun x hx y hy b hb hb' => hinj (h.owner _ (hσ x hx) _ (hσ y hy) b hb hb')⟩

end Owners

end Nstd
