import Mathlib.Data.List.Count
import Mathlib.Data.List.Perm.Basic
import Mathlib.Data.Nat.Notation
import Mathlib.Tactic.Lemma

/-!
# Lists of things that change one at a time

* **`countP_set_add`** — how many elements have a property after one of them was replaced.
* `countP_eq_iff` — as many elements have a weaker property just when no others have it.
* `mem_middle_iff` — what is in a list after one element was taken out.
* `nodup_map_middle` — an element is told from those before it and those behind it.
* `split_at_position` — a list is split at a position.
* `map_modify`, `modify_middle` — an element is changed in place.
-/

namespace Nstd

variable {α : Type}

/-- **One element is replaced**: the old one is not counted any more, the new one is. -/
theorem countP_set_add {l : List α} {i : ℕ} {a : α} (h : l[i]? = some a) (p : α → Bool) (b : α) :
    (l.set i b).countP p + (p a).toNat = l.countP p + (p b).toNat := by
  obtain ⟨hlt, hget⟩ := List.getElem?_eq_some_iff.mp h
  rw [List.countP_set hlt, hget]
  cases ha : p a with
  | false => cases p b <;> simp
  | true =>
    have hpos : 0 < l.countP p := List.countP_pos_iff.mpr ⟨a, hget ▸ List.getElem_mem hlt, ha⟩
    cases p b with
    | false =>
      simp
      omega
    | true =>
      simp
      omega

/-- A weaker property counts as many elements just when all that have it have the stronger one. -/
theorem countP_eq_iff {p q : α → Bool} {l : List α} (h : ∀ a ∈ l, p a = true → q a = true) :
    l.countP q = l.countP p ↔ ∀ a ∈ l, q a = true → p a = true := by
  induction l with
  | nil => simp
  | cons a l ih =>
    have htail := ih fun b hb => h b (List.mem_cons_of_mem a hb)
    have hle : l.countP p ≤ l.countP q :=
      List.countP_mono_left fun b hb => h b (List.mem_cons_of_mem a hb)
    rw [List.forall_mem_cons, ← htail, List.countP_cons, List.countP_cons]
    have ha := h a List.mem_cons_self
    cases hp : p a with
    | true => simp [ha hp]
    | false =>
      cases hq : q a with
      | false => simp
      | true =>
        simp
        omega

/-- One element is taken out of a list where nothing is twice. -/
theorem mem_middle_iff {l₁ l₂ : List α} {a : α} (h : (l₁ ++ a :: l₂).Nodup) (b : α) :
    b ∈ l₁ ++ l₂ ↔ b ∈ l₁ ++ a :: l₂ ∧ b ≠ a := by
  have ha := (List.nodup_cons.mp (List.perm_middle.nodup_iff.mp h)).1
  rw [List.perm_middle.mem_iff, List.mem_cons]
  constructor
  · intro hb
    exact ⟨Or.inr hb, fun heq => ha (heq ▸ hb)⟩
  · rintro ⟨rfl | hb, hne⟩
    · exact absurd rfl hne
    · exact hb

/-- What is seen of one element is seen of none before it and of none behind it. -/
theorem nodup_map_middle {β : Type} {see : α → β} {l₁ l₂ : List α} {a : α}
    (h : ((l₁ ++ a :: l₂).map see).Nodup) :
    see a ∉ l₁.map see ∧ see a ∉ l₂.map see ∧ ((l₁ ++ l₂).map see).Nodup := by
  rw [List.map_append, List.map_cons] at h
  obtain ⟨hnot, hrest⟩ := List.nodup_cons.mp (List.perm_middle.nodup_iff.mp h)
  rw [List.mem_append, not_or] at hnot
  rw [List.map_append]
  exact ⟨hnot.1, hnot.2, hrest⟩

/-- A list is split before one of its elements, or at its end, which `last` stands for. -/
theorem split_at_position {position last : α} {l : List α} (h : position ∈ l ∨ position = last) :
    ∃ l₁ l₂ rest, l = l₁ ++ l₂ ∧ l₂ ++ [last] = position :: rest := by
  rcases h with hmem | rfl
  · obtain ⟨l₁, l₂, rfl⟩ := List.append_of_mem hmem
    exact ⟨l₁, position :: l₂, _, rfl, rfl⟩
  · exact ⟨l, [], [], (List.append_nil l).symm, rfl⟩

/-- What is seen of the elements changes where an element is changed. -/
theorem map_modify {β : Type} (see : α → β) {f : α → α} {g : β → β}
    (h : ∀ a, see (f a) = g (see a)) (l : List α) (i : ℕ) :
    (l.modify i f).map see = (l.map see).modify i g := by
  induction l generalizing i with
  | nil => simp
  | cons a l ih =>
    cases i with
    | zero => simp [h]
    | succ i => simp [ih]

theorem modify_middle (l₁ : List α) (a : α) (l₂ : List α) (f : α → α) :
    (l₁ ++ a :: l₂).modify l₁.length f = l₁ ++ f a :: l₂ := by
  induction l₁ with
  | nil => simp
  | cons b l₁ ih => simp [ih]

end Nstd
