import Mathlib.Data.List.Basic
import Mathlib.Data.List.TakeWhile
import Mathlib.Tactic.SplitIfs

/-!
# Pieces between separators

* `exists_takeWhile`, `not_of_dropWhile` — where the elements of a kind at the beginning of a list end.
* `Pieces` — the maximal pieces of a list in which no separator is, in order, without empty ones.
* `splitOnP_eq_cons`, `splitOnP_eq_self` — the first piece of a list that is split at separators.
* `splitOnP_intercalate` — pieces with a separator between them are split again.
* **`pieces_splitOnP`** — those that are not empty are the maximal ones.
-/

namespace Nstd

/-! ## The elements of a kind in front -/

section Front

variable {α : Type} {p : α → Bool} {l : List α} {c : α}

/-- Where the elements of a kind end, there is no further one. -/
lemma not_of_mem_head_dropWhile (h : c ∈ (l.dropWhile p).head?) : p c = false := by
  have hnot := List.head?_dropWhile_not p l
  rw [Option.mem_def.mp h] at hnot
  simpa using hnot

lemma not_of_dropWhile {rest : List α} (h : l.dropWhile p = c :: rest) : p c = false :=
  not_of_mem_head_dropWhile (by rw [h, List.head?_cons, Option.mem_def])

/-- Any list is its elements of a kind in front, and something that does not begin with one. -/
lemma exists_takeWhile (p : α → Bool) (l : List α) :
    ∃ w x, l = w ++ x ∧ (∀ c ∈ w, p c = true) ∧ ∀ c ∈ x.head?, p c = false :=
  ⟨l.takeWhile p, l.dropWhile p, List.takeWhile_append_dropWhile.symm,
    fun _ hc => List.mem_takeWhile_imp hc, fun _ hc => not_of_mem_head_dropWhile hc⟩

end Front

namespace Pieces

variable {α : Type} {sep : α → Bool}

/-- **The maximal pieces** without a separator that are not empty: separators in front are skipped, and
    behind a piece is a separator, or nothing. -/
inductive Maximal (sep : α → Bool) : List α → List (List α) → Prop
  | nil : Maximal sep [] []
  | skip {c : α} {l : List α} {ws : List (List α)} (hc : sep c = true) (h : Maximal sep l ws) :
      Maximal sep (c :: l) ws
  | piece {w rest : List α} {ws : List (List α)} (hne : w ≠ []) (hw : ∀ c ∈ w, sep c = false)
      (hrest : ∀ c ∈ rest.head?, sep c = true) (h : Maximal sep rest ws) :
      Maximal sep (w ++ rest) (w :: ws)

/-- No separator is in front of the first one. -/
lemma none_in_front {l : List α} {i : ℕ} (h : l.findIdx? sep = some i) :
    ∀ c ∈ l.take i, sep c = false := by
  obtain ⟨hlt, -, hbefore⟩ := List.findIdx?_eq_some_iff_getElem.mp h
  intro c hc
  obtain ⟨j, hj, rfl⟩ := List.getElem_of_mem hc
  rw [List.length_take] at hj
  rw [List.getElem_take]
  exact Bool.eq_false_iff.mpr (hbefore j (by omega))

/-- In front of the first separator -/
lemma splitOnP_eq_cons {l : List α} {i : ℕ} (h : l.findIdx? sep = some i) :
    l.splitOnP sep = l.take i :: (l.drop (i + 1)).splitOnP sep := by
  obtain ⟨hlt, hsep, -⟩ := List.findIdx?_eq_some_iff_getElem.mp h
  have hsplit : l = l.take i ++ l[i] :: l.drop (i + 1) := by
    rw [List.getElem_cons_drop, List.take_append_drop]
  calc l.splitOnP sep = (l.take i ++ l[i] :: l.drop (i + 1)).splitOnP sep := by rw [← hsplit]
    _ = l.take i :: (l.drop (i + 1)).splitOnP sep :=
        List.splitOnP_append_cons_of_forall_mem (none_in_front h) _ hsep _

lemma splitOnP_eq_self {l : List α} (h : l.findIdx? sep = none) : l.splitOnP sep = [l] :=
  List.splitOnP_eq_singleton (List.findIdx?_eq_none_iff.mp h)

/-- The first piece, and what is behind its separator -/
lemma splitOnP_eq_takeWhile (sep : α → Bool) (l : List α) :
    (l.dropWhile (fun c => !sep c) = [] ∧ l.splitOnP sep = [l.takeWhile fun c => !sep c]) ∨
    ∃ x rest, l.dropWhile (fun c => !sep c) = x :: rest ∧
      l.splitOnP sep = (l.takeWhile fun c => !sep c) :: rest.splitOnP sep := by
  have hsplit : l.takeWhile (fun c => !sep c) ++ l.dropWhile (fun c => !sep c) = l :=
    List.takeWhile_append_dropWhile
  have hnone : ∀ c ∈ l.takeWhile (fun c => !sep c), sep c = false :=
    fun c hc => by simpa using List.mem_takeWhile_imp hc
  cases hrest : l.dropWhile (fun c => !sep c) with
  | nil =>
    refine Or.inl ⟨rfl, ?_⟩
    rw [hrest, List.append_nil] at hsplit
    rw [hsplit] at hnone ⊢
    exact List.splitOnP_eq_singleton hnone
  | cons x rest =>
    refine Or.inr ⟨x, rest, rfl, ?_⟩
    have hx : sep x = true := by simpa using not_of_dropWhile hrest
    rw [hrest] at hsplit
    conv_lhs => rw [← hsplit]
    exact List.splitOnP_append_cons_of_forall_mem hnone x hx rest

/-- What is in a piece -/
lemma mem_splitOnP {l w : List α} (h : w ∈ l.splitOnP sep) : (∀ c ∈ w, sep c = false) ∧ w ⊆ l := by
  induction l generalizing w with
  | nil =>
    rw [List.splitOnP_nil, List.mem_singleton] at h
    subst h
    exact ⟨fun c hc => absurd hc List.not_mem_nil, List.nil_subset _⟩
  | cons c l ih =>
    rw [List.splitOnP_cons_eq_if_modifyHead] at h
    split_ifs at h with hc
    · rcases List.mem_cons.mp h with rfl | h
      · exact ⟨fun d hd => absurd hd List.not_mem_nil, List.nil_subset _⟩
      · exact ⟨(ih h).1, fun d hd => List.mem_cons_of_mem c ((ih h).2 hd)⟩
    · obtain ⟨v, vs, hv⟩ := List.exists_cons_of_ne_nil (List.splitOnP_ne_nil sep l)
      rw [hv, List.modifyHead_cons] at h
      rw [hv] at ih
      rcases List.mem_cons.mp h with rfl | h
      · obtain ⟨hnone, hsub⟩ := ih List.mem_cons_self
        refine ⟨fun d hd => ?_, List.cons_subset_cons c hsub⟩
        rcases List.mem_cons.mp hd with rfl | hd
        · exact Bool.eq_false_iff.mpr hc
        · exact hnone d hd
      · obtain ⟨hnone, hsub⟩ := ih (List.mem_cons_of_mem v h)
        exact ⟨hnone, fun d hd => List.mem_cons_of_mem c (hsub hd)⟩

/-- More pieces -/
lemma intercalate_append (x : α) {ls ls' : List (List α)} (hls : ls ≠ []) (hls' : ls' ≠ []) :
    [x].intercalate (ls ++ ls') = [x].intercalate ls ++ x :: [x].intercalate ls' := by
  induction ls with
  | nil => exact absurd rfl hls
  | cons l ls ih =>
    rw [List.cons_append, List.intercalate_cons_of_ne_nil (by simp [hls'])]
    by_cases hnil : ls = []
    · subst hnil
      simp
    · rw [ih hnil, List.intercalate_cons_of_ne_nil hnil]
      simp

lemma mem_intercalate {x d : α} {ls : List (List α)} (h : d ∈ [x].intercalate ls) :
    d = x ∨ ∃ l ∈ ls, d ∈ l := by
  induction ls with
  | nil => exact nomatch h
  | cons l ls ih =>
    by_cases hnil : ls = []
    · rw [hnil, List.intercalate_singleton] at h
      exact Or.inr ⟨l, List.mem_cons_self, h⟩
    · rw [List.intercalate_cons_of_ne_nil hnil, List.mem_append, List.mem_append,
        List.mem_singleton] at h
      rcases h with (h | h) | h
      · exact Or.inr ⟨l, List.mem_cons_self, h⟩
      · exact Or.inl h
      · exact (ih h).imp_right fun ⟨l', hl', hd⟩ => ⟨l', List.mem_cons_of_mem l hl', hd⟩

/-- **Pieces with a separator between them** are split again. -/
theorem splitOnP_intercalate {x : α} (hx : sep x = true) {ls : List (List α)} (hls : ls ≠ [])
    (h : ∀ l ∈ ls, ∀ c ∈ l, sep c = false) : ([x].intercalate ls).splitOnP sep = ls := by
  induction ls with
  | nil => exact absurd rfl hls
  | cons l ls ih =>
    have hl := h l List.mem_cons_self
    by_cases hnil : ls = []
    · subst hnil
      rw [List.intercalate_singleton, List.splitOnP_eq_singleton hl]
    · rw [List.intercalate_cons_of_ne_nil hnil, List.append_assoc, List.singleton_append,
        List.splitOnP_append_cons_of_forall_mem hl x hx,
        ih hnil fun l' hl' => h l' (List.mem_cons_of_mem l hl')]

/-- **A list that is split**: what is not empty are the maximal pieces. -/
theorem pieces_splitOnP [DecidableEq α] (sep : α → Bool) (l : List α) :
    Maximal sep l ((l.splitOnP sep).filter (· ≠ [])) := by
  induction hn : l.length using Nat.strong_induction_on generalizing l with
  | _ n ih =>
    cases hfind : l.findIdx? sep with
    | none =>
      rw [splitOnP_eq_self hfind]
      by_cases hnil : l = []
      · rw [hnil]
        exact .nil
      · have hpiece : Maximal sep (l ++ []) [l] :=
          .piece hnil (List.findIdx?_eq_none_iff.mp hfind) (fun c hc => nomatch hc) .nil
        rw [List.append_nil] at hpiece
        simpa [hnil] using hpiece
    | some i =>
      obtain ⟨hlt, hsep, -⟩ := List.findIdx?_eq_some_iff_getElem.mp hfind
      have hlater := Maximal.skip hsep
        (ih _ (by rw [List.length_drop]; omega) (l.drop (i + 1)) rfl)
      have hdrop : l[i] :: l.drop (i + 1) = l.drop i := List.getElem_cons_drop hlt
      rw [hdrop] at hlater
      rw [splitOnP_eq_cons hfind]
      by_cases hi : i = 0
      · subst hi
        simpa using hlater
      · have hne : l.take i ≠ [] := by
          intro h
          have hlength := congrArg List.length h
          rw [List.length_take, List.length_nil] at hlength
          omega
        have hpiece := Maximal.piece hne (none_in_front hfind) (fun c hc => ?_) hlater
        · rw [List.take_append_drop] at hpiece
          simpa [hne] using hpiece
        · rw [← hdrop, List.head?_cons] at hc
          obtain rfl := Option.some.inj hc
          exact hsep

end Pieces

end Nstd
