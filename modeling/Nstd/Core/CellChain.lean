import Mathlib.Data.List.Nodup
import Mathlib.Tactic.Common

/-!
# Chains of nodes that know the cell they hang in

A node hangs in a cell, that is a pointer to it, and has a cell of its own, `below` it, in which the
next node hangs.  It keeps the address of the cell it hangs in, so that it can be taken out of its
chain by whoever finds it, without a walk from the start of the chain.

* `Hung below pointer cell c l` — the nodes `l` hang in `c`, one below the other.
* `Hung.pointer_cell` — the cell a node knows is the one that points to it.
* `Hung.push`, `Hung.remove` — the two edits, for any pointers and cells that differ from the old
  ones in the right places only.
-/

namespace Linked

variable {A C : Type} {below : A → C} {pointer pointer' : C → Option A} {cell cell' : A → C}

/-- The nodes `l` hang in `c`, one below the other. -/
def Hung (below : A → C) (pointer : C → Option A) (cell : A → C) : C → List A → Prop
  | c, [] => pointer c = none
  | c, a :: l => pointer c = some a ∧ cell a = c ∧ Hung below pointer cell (below a) l

@[simp] lemma hung_nil {c : C} : Hung below pointer cell c [] ↔ pointer c = none := Iff.rfl

@[simp] lemma hung_cons {c : C} {a : A} {l : List A} : Hung below pointer cell c (a :: l) ↔
    pointer c = some a ∧ cell a = c ∧ Hung below pointer cell (below a) l := Iff.rfl

/-- A cell points to the first of the nodes in it. -/
lemma Hung.pointer_eq {c : C} {l : List A} (h : Hung below pointer cell c l) : pointer c = l.head? := by
  cases l with
  | nil => exact h
  | cons a l => exact h.1

/-- What is below a node of a chain -/
lemma Hung.below_node {c : C} {l₁ l₂ : List A} {a : A}
    (h : Hung below pointer cell c (l₁ ++ a :: l₂)) : Hung below pointer cell (below a) l₂ := by
  induction l₁ generalizing c with
  | nil => exact h.2.2
  | cons b l₁ ih => exact ih h.2.2

/-- **The cell a node knows** is the one that points to it. -/
theorem Hung.pointer_cell {c : C} {l : List A} (h : Hung below pointer cell c l) {a : A}
    (ha : a ∈ l) : pointer (cell a) = some a := by
  induction l generalizing c with
  | nil => exact absurd ha List.not_mem_nil
  | cons b l ih =>
    obtain ⟨hb, hcell, hl⟩ := h
    rcases List.mem_cons.mp ha with rfl | ha
    · rw [hcell, hb]
    · exact ih hl ha

/-- Nodes hang in the cell of the chain or below each other. -/
lemma Hung.cell_mem {c : C} {l : List A} (h : Hung below pointer cell c l) {a : A} (ha : a ∈ l) :
    cell a ∈ c :: l.map below := by
  induction l generalizing c with
  | nil => exact absurd ha List.not_mem_nil
  | cons b l ih =>
    obtain ⟨-, hcell, hl⟩ := h
    rcases List.mem_cons.mp ha with rfl | ha
    · rw [hcell]
      exact List.mem_cons_self
    · exact List.mem_cons_of_mem _ (ih hl ha)

/-- A node does not hang in the cell below it. -/
lemma Hung.below_ne_cell {c : C} {l₁ l₂ : List A} {a : A}
    (h : Hung below pointer cell c (l₁ ++ a :: l₂))
    (hcells : (c :: (l₁ ++ a :: l₂).map below).Nodup) : below a ≠ cell a := by
  induction l₁ generalizing c with
  | nil =>
    rintro heq
    rw [h.2.1] at heq
    exact (List.nodup_cons.mp hcells).1 (heq ▸ List.mem_cons_self)
  | cons b l₁ ih => exact ih h.2.2 (List.nodup_cons.mp hcells).2

/-- A chain reads its cells, and what its nodes know. -/
theorem Hung.congr {c : C} {l : List A} (h : Hung below pointer cell c l)
    (hp : ∀ z ∈ c :: l.map below, pointer' z = pointer z) (hc : ∀ a ∈ l, cell' a = cell a) :
    Hung below pointer' cell' c l := by
  induction l generalizing c with
  | nil => exact (hp c List.mem_cons_self).trans h
  | cons a l ih =>
    obtain ⟨ha, hcell, hl⟩ := h
    refine ⟨(hp c List.mem_cons_self).trans ha, (hc a List.mem_cons_self).trans hcell, ?_⟩
    exact ih hl (fun z hz => hp z (List.mem_cons_of_mem _ hz))
      fun b hb => hc b (List.mem_cons_of_mem _ hb)

/-- **Hanging a node in** front of the others -/
theorem Hung.push {c : C} {l : List A} {a : A} (h : Hung below pointer cell c l) (hnd : l.Nodup)
    (hpc : pointer' c = some a) (hca : cell' a = c) (hpa : pointer' (below a) = l.head?)
    (hch : ∀ b ∈ l.head?, cell' b = below a)
    (hp : ∀ b ∈ l, pointer' (below b) = pointer (below b))
    (hc : ∀ b ∈ l, b ∉ l.head? → cell' b = cell b) : Hung below pointer' cell' c (a :: l) := by
  refine ⟨hpc, hca, ?_⟩
  cases l with
  | nil => exact hpa
  | cons b l =>
    refine ⟨hpa, hch b rfl, h.2.2.congr ?_ ?_⟩
    · intro z hz
      rw [← List.map_cons] at hz
      obtain ⟨w, hw, rfl⟩ := List.mem_map.mp hz
      exact hp w hw
    · intro w hw
      refine hc w (List.mem_cons_of_mem _ hw) ?_
      intro hhead
      obtain rfl : b = w := Option.some_inj.mp hhead
      exact (List.nodup_cons.mp hnd).1 hw

/-- **Taking a node out** -/
theorem Hung.remove {c : C} {l₁ l₂ : List A} {a : A}
    (h : Hung below pointer cell c (l₁ ++ a :: l₂)) (hnd : (l₁ ++ a :: l₂).Nodup)
    (hcells : (c :: (l₁ ++ a :: l₂).map below).Nodup)
    (hpa : pointer' (cell a) = l₂.head?) (hch : ∀ b ∈ l₂.head?, cell' b = cell a)
    (hp : ∀ z, z ≠ cell a → pointer' z = pointer z)
    (hc : ∀ b, b ∉ l₂.head? → cell' b = cell b) : Hung below pointer' cell' c (l₁ ++ l₂) := by
  induction l₁ generalizing c with
  | nil =>
    obtain ⟨-, rfl, hl₂⟩ := h
    obtain ⟨ha, hnd₂⟩ := List.nodup_cons.mp (show (cell a :: (a :: l₂).map below).Nodup from hcells)
    cases l₂ with
    | nil => exact hpa
    | cons b l₂ =>
      refine ⟨hpa, hch b rfl, hl₂.2.2.congr ?_ ?_⟩
      · intro z hz
        refine hp z ?_
        rintro rfl
        exact ha (List.mem_cons_of_mem _ (by rwa [List.map_cons]))
      · intro w hw
        refine hc w ?_
        intro hhead
        obtain rfl : b = w := Option.some_inj.mp hhead
        exact (List.nodup_cons.mp (List.nodup_cons.mp hnd).2).1 hw
  | cons b l₁ ih =>
    obtain ⟨hb, hcell, hl⟩ := h
    obtain ⟨hc₁, hcells₂⟩ := List.nodup_cons.mp hcells
    obtain ⟨hb₁, hnd₂⟩ := List.nodup_cons.mp (show (b :: (l₁ ++ a :: l₂)).Nodup from hnd)
    refine ⟨?_, ?_, ih hl hnd₂ hcells₂⟩
    · rw [hp c ?_, hb]
      rintro rfl
      exact hc₁ (hl.cell_mem (by simp))
    · rw [hc b ?_, hcell]
      intro hhead
      exact hb₁ (List.mem_append_right _ (List.mem_cons_of_mem _ (List.mem_of_mem_head? hhead)))

end Linked
