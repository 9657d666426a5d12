import Mathlib.Data.List.Infix
import Mathlib.Data.Nat.Notation
import Mathlib.Tactic.Lemma

/-!
# Patterns with wildcards

A pattern is a list of wildcards and characters; which characters of a text a character of a
pattern stands for is a relation.

* `Wildcard`, `Matches` — patterns, and the texts they stand for.
* `matches_one_cons`, `matches_char_cons`, `matches_any_iff` — the same, by the first item.
* `Matches.absorb` — a text in front is left to the star.
* `Plain` — patterns without a star, which stand for texts of their length.
* **`Plain.restart`** — what is behind a star need not be tried again in front of the place where
  the next star was reached.
-/

namespace Nstd

/-- An item of a pattern: `?`, `*`, or a character -/
inductive Wildcard (α : Type)
  | one
  | any
  | char (a : α)

namespace Wildcard

variable {α β : Type} {same : α → β → Prop}

/-- **The language of a pattern** -/
inductive Matches (same : α → β → Prop) : List (Wildcard α) → List β → Prop
  | nil : Matches same [] []
  | one {pattern : List (Wildcard α)} {text : List β} (b : β) :
      Matches same pattern text → Matches same (.one :: pattern) (b :: text)
  | any {pattern : List (Wildcard α)} {text : List β} (skipped : List β) :
      Matches same pattern text → Matches same (.any :: pattern) (skipped ++ text)
  | char {pattern : List (Wildcard α)} {text : List β} {a : α} {b : β} : same a b →
      Matches same pattern text → Matches same (.char a :: pattern) (b :: text)

variable {pattern : List (Wildcard α)} {text : List β} {a : α} {b : β}

@[simp] lemma matches_nil_iff : Matches same [] text ↔ text = [] := by
  constructor
  · rintro ⟨⟩
    rfl
  · rintro rfl
    exact .nil

@[simp] lemma matches_one_cons :
    Matches same (.one :: pattern) (b :: text) ↔ Matches same pattern text := by
  constructor
  · rintro ⟨⟩
    assumption
  · exact .one b

@[simp] lemma matches_char_cons :
    Matches same (.char a :: pattern) (b :: text) ↔ same a b ∧ Matches same pattern text := by
  constructor
  · rintro ⟨⟩
    exact ⟨by assumption, by assumption⟩
  · rintro ⟨hsame, hrest⟩
    exact .char hsame hrest

@[simp] lemma not_matches_one_nil : ¬ Matches same (.one :: pattern) [] := by
  rintro ⟨⟩

@[simp] lemma not_matches_char_nil : ¬ Matches same (.char a :: pattern) [] := by
  rintro ⟨⟩

/-- A star stands for what is in front of some place. -/
lemma matches_any_iff :
    Matches same (.any :: pattern) text ↔ ∃ rest, rest <:+ text ∧ Matches same pattern rest := by
  constructor
  · intro h
    cases h with
    | any skipped hrest => exact ⟨_, List.suffix_append skipped _, hrest⟩
  · rintro ⟨rest, ⟨skipped, rfl⟩, hrest⟩
    exact .any skipped hrest

/-- **A text in front** is left to the star. -/
lemma Matches.absorb {rest : List β} (h : Matches same (.any :: pattern) rest)
    (hsuffix : rest <:+ text) : Matches same (.any :: pattern) text := by
  obtain ⟨rest', hrest', hmatches⟩ := matches_any_iff.mp h
  exact matches_any_iff.mpr ⟨rest', hrest'.trans hsuffix, hmatches⟩

/-- Stars after each other are as one. -/
lemma matches_any_any :
    Matches same (.any :: .any :: pattern) text ↔ Matches same (.any :: pattern) text := by
  constructor
  · intro h
    obtain ⟨rest, hrest, hmatches⟩ := matches_any_iff.mp h
    exact hmatches.absorb hrest
  · exact fun h => matches_any_iff.mpr ⟨text, List.suffix_rfl, h⟩

/-- A star at the end stands for all that is left. -/
lemma matches_any_nil : Matches same [.any] text :=
  matches_any_iff.mpr ⟨[], List.nil_suffix, .nil⟩

/-- A pattern without a star -/
def Plain (pattern : List (Wildcard α)) : Prop := Wildcard.any ∉ pattern

/-- **A pattern without a star** stands for texts of its length. -/
lemma Plain.split {front : List (Wildcard α)} (h : Plain front)
    (hmatches : Matches same (front ++ pattern) text) :
    ∃ text₁ text₂, text = text₁ ++ text₂ ∧ text₁.length = front.length
      ∧ Matches same pattern text₂ := by
  induction front generalizing text with
  | nil => exact ⟨[], text, rfl, rfl, hmatches⟩
  | cons item front ih =>
    have hfront : Plain front := fun hmem => h (List.mem_cons_of_mem item hmem)
    cases hmatches with
    | any => exact absurd List.mem_cons_self h
    | one b hrest =>
      obtain ⟨text₁, text₂, rfl, hlen, hpattern⟩ := ih hfront hrest
      exact ⟨b :: text₁, text₂, rfl, by rw [List.length_cons, List.length_cons, hlen], hpattern⟩
    | char _ hrest =>
      obtain ⟨text₁, text₂, rfl, hlen, hpattern⟩ := ih hfront hrest
      exact ⟨_ :: text₁, text₂, rfl, by rw [List.length_cons, List.length_cons, hlen], hpattern⟩

/-- **The next star was reached**: what is behind it can be found there if it can be found after
    more of the text was left to the star before. -/
theorem Plain.restart {front : List (Wildcard α)} (h : Plain front) {passed text later : List β}
    (hpassed : passed.length = front.length) (hlater : later <:+ passed ++ text)
    (hmatches : Matches same (front ++ .any :: pattern) later) :
    Matches same (.any :: pattern) text := by
  obtain ⟨text₁, text₂, rfl, hlen, hrest⟩ := h.split hmatches
  have hsuffix : text₂ <:+ passed ++ text := (List.suffix_append text₁ text₂).trans hlater
  have hle := hlater.length_le
  rw [List.length_append, List.length_append] at hle
  exact hrest.absorb (List.suffix_of_suffix_length_le hsuffix (List.suffix_append passed text)
    (by omega))

/-- **The text has ended**: it would be too short after more of it was left to the star. -/
theorem Plain.tooShort {front : List (Wildcard α)} (h : Plain front) {passed later : List β}
    (hpassed : passed.length = front.length) (hlater : later.length < passed.length) :
    ¬ Matches same (front ++ pattern) later := by
  intro hmatches
  obtain ⟨text₁, text₂, rfl, hlen, -⟩ := h.split hmatches
  rw [List.length_append] at hlater
  omega

end Wildcard

end Nstd
