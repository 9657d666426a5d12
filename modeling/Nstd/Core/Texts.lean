import Mathlib.Data.List.Basic
import Mathlib.Data.List.Infix
import Mathlib.Data.List.TakeWhile

/-!
# Texts that end with a mark

* `upTo` — what is in front of the first mark; `upTo_of_prefix` where a mark is known.
* `find` — the first place where a list begins with another one.
* `starts` — the occurrences that a search from left to right finds, none of which overlap.
* `replaceAll` — each of them is replaced.
* **`find_some_of_append`**, **`find_none_of_append`** — a search in a list, and in what it is the
  beginning of.
-/

namespace Nstd.Texts

variable {α : Type} [DecidableEq α]

/-! ## Marks -/

/-- What is in front of the first `mark`, if there is one -/
def upTo (mark : α) : List α → Option (List α)
  | [] => none
  | c :: l => if c = mark then some [] else (upTo mark l).map (c :: ·)

lemma upTo_of_prefix {mark : α} {v l : List α} (h : v ++ [mark] <+: l) :
    upTo mark l = some (v.takeWhile (· ≠ mark)) := by
  induction v generalizing l with
  | nil =>
    obtain ⟨l, rfl⟩ := h
    simp [upTo]
  | cons c v ih =>
    obtain ⟨l, rfl⟩ := h
    by_cases hc : c = mark
    · simp [upTo, hc]
    · rw [List.cons_append, List.cons_append, upTo, if_neg hc, ih (List.prefix_append _ l)]
      simp [hc]

/-- Without a mark in it, all of `v` is in front of the mark. -/
lemma takeWhile_of_not_mem {mark : α} {v : List α} (h : mark ∉ v) : v.takeWhile (· ≠ mark) = v := by
  refine List.takeWhile_eq_self_iff.mpr fun c hc => ?_
  simp only [ne_eq, decide_not, Bool.not_eq_eq_eq_not, Bool.not_true, decide_eq_false_iff_not]
  rintro rfl
  exact h hc

lemma upTo_eq_some {mark : α} {l t : List α} (h : upTo mark l = some t) :
    mark ∉ t ∧ t ++ [mark] <+: l := by
  induction l generalizing t with
  | nil => exact nomatch h
  | cons c l ih =>
    rw [upTo] at h
    split_ifs at h with hc
    · obtain rfl := Option.some.inj h
      rw [hc]
      exact ⟨List.not_mem_nil, List.prefix_append [mark] l⟩
    · obtain ⟨t, ht, rfl⟩ := Option.map_eq_some_iff.mp h
      obtain ⟨hnot, hbegins⟩ := ih ht
      refine ⟨fun hmem => ?_, List.cons_prefix_cons.mpr ⟨rfl, hbegins⟩⟩
      rcases List.mem_cons.mp hmem with rfl | hmem
      · exact hc rfl
      · exact hnot hmem

/-- What has no mark in it belongs to the text. -/
lemma upTo_append {mark : α} {v : List α} (h : mark ∉ v) (l : List α) :
    upTo mark (v ++ l) = (upTo mark l).map (v ++ ·) := by
  induction v with
  | nil => simp
  | cons c v ih =>
    have hc : c ≠ mark := fun hc => h (hc ▸ List.mem_cons_self)
    rw [List.cons_append, upTo, if_neg hc, ih fun hmem => h (List.mem_cons_of_mem c hmem),
      Option.map_map]
    rfl

/-- What is behind a mark does not belong to the text. -/
lemma upTo_of_mem {mark : α} {v : List α} (h : mark ∈ v) (l : List α) :
    upTo mark (v ++ l) = some (v.takeWhile (· ≠ mark)) := by
  induction v with
  | nil => exact absurd h List.not_mem_nil
  | cons c v ih =>
    rw [List.cons_append, upTo]
    by_cases hc : c = mark
    · simp [hc]
    · rw [if_neg hc, ih ((List.mem_cons.mp h).resolve_left (Ne.symm hc))]
      simp [hc]

/-- From a place in front of the mark on -/
lemma upTo_drop {mark : α} {l t : List α} (h : upTo mark l = some t) {i : ℕ} (hi : i ≤ t.length) :
    upTo mark (l.drop i) = some (t.drop i) := by
  obtain ⟨hnot, rest, rfl⟩ := upTo_eq_some h
  have hdrop : (t ++ [mark] ++ rest).drop i = t.drop i ++ [mark] ++ rest := by
    rw [List.append_assoc, List.drop_append_of_le_length hi, List.append_assoc]
  rw [hdrop, upTo_of_prefix (List.prefix_append _ rest), takeWhile_of_not_mem]
  exact fun hmem => hnot (List.mem_of_mem_drop hmem)

/-! ## Searching -/

/-- The first place where a list begins with `needle` -/
def find (needle : List α) : List α → Option ℕ
  | [] => if needle = [] then some 0 else none
  | c :: l => if needle <+: c :: l then some 0 else (find needle l).map (· + 1)

lemma find_eq_some {needle l : List α} {i : ℕ} (h : find needle l = some i) :
    needle <+: l.drop i ∧ i + needle.length ≤ l.length ∧ ∀ j < i, ¬ needle <+: l.drop j := by
  induction l generalizing i with
  | nil =>
    rw [find] at h
    split_ifs at h with hnil
    obtain rfl := Option.some.inj h
    rw [hnil]
    exact ⟨List.nil_prefix, Nat.le_refl _, fun j hj => absurd hj (Nat.not_lt_zero j)⟩
  | cons c l ih =>
    rw [find] at h
    split_ifs at h with hhere
    · obtain rfl := Option.some.inj h
      exact ⟨hhere, by simpa using hhere.length_le, fun j hj => absurd hj (Nat.not_lt_zero j)⟩
    · obtain ⟨k, hk, rfl⟩ := Option.map_eq_some_iff.mp h
      obtain ⟨hbegins, hle, hbefore⟩ := ih hk
      refine ⟨hbegins, by rw [List.length_cons]; omega, fun j hj => ?_⟩
      cases j with
      | zero => exact hhere
      | succ j => exact hbefore j (by omega)

lemma find_eq_none {needle l : List α} (h : find needle l = none) :
    ∀ j, j ≤ l.length → ¬ needle <+: l.drop j := by
  induction l with
  | nil =>
    rw [find] at h
    split_ifs at h with hnil
    intro j _ hbegins
    rw [List.drop_nil] at hbegins
    exact hnil (List.prefix_nil.mp hbegins)
  | cons c l ih =>
    rw [find] at h
    split_ifs at h with hhere
    intro j hj
    cases j with
    | zero => exact hhere
    | succ j => exact ih (Option.map_eq_none_iff.mp h) j (by rw [List.length_cons] at hj; omega)

/-- A place with nothing like it in front is what is found. -/
lemma find_of_first {needle l : List α} {i : ℕ} (hbegins : needle <+: l.drop i)
    (hle : i + needle.length ≤ l.length) (hbefore : ∀ j < i, ¬ needle <+: l.drop j) :
    find needle l = some i := by
  cases hfind : find needle l with
  | none => exact absurd hbegins (find_eq_none hfind i (by omega))
  | some k =>
    obtain ⟨hbegins', hle', hbefore'⟩ := find_eq_some hfind
    rcases Nat.lt_trichotomy i k with hlt | rfl | hlt
    · exact absurd hbegins (hbefore' i hlt)
    · rfl
    · exact absurd hbegins' (hbefore k hlt)

lemma find_nil (l : List α) : find [] l = some 0 :=
  find_of_first List.nil_prefix (Nat.zero_le _) fun j hj => absurd hj (Nat.not_lt_zero j)

/-- A list begins with itself. -/
lemma find_of_prefix {needle l : List α} (h : needle <+: l) : find needle l = some 0 :=
  find_of_first h (by simpa using h.length_le) fun j hj => absurd hj (Nat.not_lt_zero j)

/-- **What is found** in front of `rest` is found without it. -/
theorem find_some_of_append {needle l rest : List α} {i : ℕ} (h : find needle (l ++ rest) = some i)
    (hle : i + needle.length ≤ l.length) : find needle l = some i := by
  obtain ⟨hbegins, -, hbefore⟩ := find_eq_some h
  refine find_of_first ?_ hle fun j hj hother => hbefore j hj ?_
  · rw [List.drop_append_of_le_length (by omega)] at hbegins
    exact List.prefix_of_prefix_length_le hbegins (List.prefix_append _ rest)
      (by rw [List.length_drop]; omega)
  · rw [List.drop_append_of_le_length (by omega)]
    exact hother.trans (List.prefix_append _ rest)

/-- **What is not found** is not found in the beginning either. -/
theorem find_none_of_append {needle l rest : List α} (h : find needle (l ++ rest) = none) :
    find needle l = none := by
  cases hfind : find needle l with
  | none => rfl
  | some i =>
    obtain ⟨hbegins, hle, -⟩ := find_eq_some hfind
    refine absurd ?_ (find_eq_none h i (by rw [List.length_append]; omega))
    rw [List.drop_append_of_le_length (by omega)]
    exact hbegins.trans (List.prefix_append _ rest)

/-! ## Replacing -/

/-- Where the occurrences are that a search from left to right finds, when the list begins at `i`
    and `k` of its members belong to the occurrence before -/
def starts (needle : List α) : ℕ → ℕ → List α → List ℕ
  | _, _, [] => []
  | k + 1, i, _ :: l => starts needle k (i + 1) l
  | 0, i, c :: l =>
    if needle <+: c :: l then i :: starts needle (needle.length - 1) (i + 1) l
    else starts needle 0 (i + 1) l

/-- Occurrences are replaced from left to right; `k` members belong to the one before. -/
def replaceFrom (needle replacement : List α) : ℕ → List α → List α
  | _, [] => []
  | k + 1, _ :: l => replaceFrom needle replacement k l
  | 0, c :: l =>
    if needle <+: c :: l then
      replacement ++ replaceFrom needle replacement (needle.length - 1) l
    else c :: replaceFrom needle replacement 0 l

/-- All occurrences are replaced; there is nothing to replace if `needle` is empty. -/
def replaceAll (needle replacement l : List α) : List α :=
  if needle = [] then l else replaceFrom needle replacement 0 l

variable {needle : List α}

lemma starts_skip (k i : ℕ) (l : List α) : starts needle k i l = starts needle 0 (i + k) (l.drop k) := by
  induction k generalizing i l with
  | zero => rfl
  | succ k ih =>
    cases l with
    | nil => simp [starts]
    | cons c l => rw [starts, ih, List.drop_succ_cons, Nat.add_right_comm, Nat.add_assoc]

lemma replaceFrom_skip (replacement : List α) (k : ℕ) (l : List α) :
    replaceFrom needle replacement k l = replaceFrom needle replacement 0 (l.drop k) := by
  induction k generalizing l with
  | zero => rfl
  | succ k ih =>
    cases l with
    | nil => simp [replaceFrom]
    | cons c l => rw [replaceFrom, ih, List.drop_succ_cons]

/-- Occurrences end within the list. -/
lemma starts_le {l : List α} {k i : ℕ} :
    ∀ j ∈ starts needle k i l, j + needle.length ≤ i + l.length := by
  induction l generalizing k i with
  | nil => simp [starts]
  | cons c l ih =>
    have hlater : ∀ k, ∀ j ∈ starts needle k (i + 1) l,
        j + needle.length ≤ i + (c :: l).length := by
      intro k j hj
      have hle := ih j hj
      rw [List.length_cons]
      omega
    intro j hj
    cases k with
    | succ k => exact hlater k j hj
    | zero =>
      rw [starts] at hj
      split_ifs at hj with hhere
      · rcases List.mem_cons.mp hj with rfl | hj
        · exact Nat.add_le_add_left hhere.length_le j
        · exact hlater _ j hj
      · exact hlater 0 j hj

lemma starts_of_none {l : List α} (i : ℕ) (h : find needle l = none) : starts needle 0 i l = [] := by
  induction l generalizing i with
  | nil => rfl
  | cons c l ih =>
    rw [find] at h
    split_ifs at h with hhere
    rw [starts, if_neg hhere, ih _ (Option.map_eq_none_iff.mp h)]

lemma replaceFrom_of_none {replacement l : List α} (h : find needle l = none) :
    replaceFrom needle replacement 0 l = l := by
  induction l with
  | nil => rfl
  | cons c l ih =>
    rw [find] at h
    split_ifs at h with hhere
    rw [replaceFrom, if_neg hhere, ih (Option.map_eq_none_iff.mp h)]

omit [DecidableEq α] in
/-- What is left behind an occurrence at the beginning -/
lemma drop_needle (hne : needle ≠ []) (c : α) (l : List α) :
    (c :: l).drop needle.length = l.drop (needle.length - 1) := by
  have hpos := List.length_pos_iff.mpr hne
  obtain ⟨n, hn⟩ : ∃ n, needle.length = n + 1 := ⟨needle.length - 1, by omega⟩
  rw [hn, List.drop_succ_cons, Nat.add_sub_cancel]

/-- The first occurrence, and the others behind it -/
lemma starts_of_some (hne : needle ≠ []) {l : List α} {j : ℕ} (i : ℕ)
    (h : find needle l = some j) : starts needle 0 i l
      = (i + j) :: starts needle 0 (i + j + needle.length) (l.drop (j + needle.length)) := by
  induction l generalizing i j with
  | nil =>
    rw [find, if_neg hne] at h
    exact nomatch h
  | cons c l ih =>
    rw [find] at h
    split_ifs at h with hhere
    · obtain rfl := Option.some.inj h
      have hpos := List.length_pos_iff.mpr hne
      rw [starts, if_pos hhere, starts_skip, Nat.zero_add, drop_needle hne, Nat.add_zero]
      congr 2
      omega
    · obtain ⟨k, hk, rfl⟩ := Option.map_eq_some_iff.mp h
      rw [starts, if_neg hhere, ih _ hk, Nat.add_right_comm k, List.drop_succ_cons]
      have hplace : i + 1 + k = i + (k + 1) := by omega
      rw [hplace]

/-- The first occurrence is replaced, and the others behind it. -/
lemma replaceFrom_of_some (hne : needle ≠ []) {replacement l : List α} {j : ℕ}
    (h : find needle l = some j) : replaceFrom needle replacement 0 l
      = l.take j ++ replacement
        ++ replaceFrom needle replacement 0 (l.drop (j + needle.length)) := by
  induction l generalizing j with
  | nil =>
    rw [find, if_neg hne] at h
    exact nomatch h
  | cons c l ih =>
    rw [find] at h
    split_ifs at h with hhere
    · obtain rfl := Option.some.inj h
      rw [replaceFrom, if_pos hhere, replaceFrom_skip, Nat.zero_add, drop_needle hne]
      rfl
    · obtain ⟨k, hk, rfl⟩ := Option.map_eq_some_iff.mp h
      rw [replaceFrom, if_neg hhere, ih hk, Nat.add_right_comm k, List.drop_succ_cons]
      rfl

end Nstd.Texts
