import Mathlib.Data.List.Basic
import Mathlib.Data.List.Induction
import Mathlib.Tactic.SplitIfs

/-!
# Components of which some lead upwards

A path is a list of components, of which one, `up`, takes the one before it away, and others, those of
`skip`, mean nothing.

* `step`, `normalize` — a stack of the components that are kept.
* `Normal` — what such a stack looks like: at its bottom are components that lead upwards, and above
  them are names.
* **`normalize_of_normal`** — there is nothing to do about such a stack.
* `level` — how many names are open; **`normalize_eq_nil_iff`** — nothing is kept exactly if each name is
  taken away and nothing else is.
* `foldl_step_up` — as many components that lead upwards as there are names to take away.
-/

namespace Nstd.Components

variable {C : Type} [DecidableEq C] (skip : C → Bool) (up : C)

/-- One component, on top of those that were kept -/
def step (stack : List C) (c : C) : List C :=
  if skip c then stack
  else if c = up ∧ stack ≠ [] ∧ stack.getLast? ≠ some up then stack.dropLast
  else stack ++ [c]

/-- The components that are kept, the top at the end -/
def normalize (cs : List C) : List C := cs.foldl (step skip up) []

/-- Components that lead upwards, and above them names -/
def Normal (stack : List C) : Prop :=
  ∃ k names, stack = List.replicate k up ++ names ∧ up ∉ names ∧ ∀ c ∈ stack, skip c = false

/-- How many names are open behind some components, when there were `n` before; `none` if one leads
    upwards without a name to take away -/
def level : ℕ → List C → Option ℕ
  | n, [] => some n
  | n, c :: cs =>
    if skip c then level n cs
    else if c = up then
      match n with
      | 0 => none
      | n + 1 => level n cs
    else level (n + 1) cs

variable {skip up}

/-! ## Steps -/

lemma step_skip {c : C} (hc : skip c = true) (stack : List C) : step skip up stack c = stack :=
  if_pos hc

lemma step_name {c : C} (hc : skip c = false) (hup : c ≠ up) (stack : List C) :
    step skip up stack c = stack ++ [c] := by
  rw [step, if_neg (by simp [hc]), if_neg fun h => hup h.1]

/-- A name is taken away. -/
lemma step_up (hskip : skip up = false) {c : C} (hc : c ≠ up) (stack : List C) :
    step skip up (stack ++ [c]) up = stack := by
  have hlast : (stack ++ [c]).getLast? ≠ some up := by simpa using hc
  rw [step, if_neg (by simp [hskip]), if_pos ⟨rfl, by simp, hlast⟩, List.dropLast_concat]

/-- Without a name on top there is nothing to take away. -/
lemma step_up_kept (hskip : skip up = false) {stack : List C} (h : ∀ c ∈ stack.getLast?, c = up) :
    step skip up stack up = stack ++ [up] := by
  have hkept : ¬ (up = up ∧ stack ≠ [] ∧ stack.getLast? ≠ some up) := by
    rintro ⟨-, hne, hlast⟩
    obtain ⟨c, hc⟩ := Option.isSome_iff_exists.mp (List.getLast?_isSome.mpr hne)
    exact hlast (by rw [hc, h c hc])
  rw [step, if_neg (by simp [hskip]), if_neg hkept]

lemma step_up_ups (hskip : skip up = false) (k : ℕ) :
    step skip up (List.replicate k up) up = List.replicate (k + 1) up := by
  rw [step_up_kept hskip fun c hc => List.eq_of_mem_replicate (List.mem_of_getLast? hc),
    List.replicate_succ']

lemma step_normal {stack : List C} (h : Normal skip up stack) (c : C) :
    Normal skip up (step skip up stack c) := by
  by_cases hskip : skip c = true
  · rwa [step_skip hskip]
  rw [Bool.not_eq_true] at hskip
  obtain ⟨k, names, rfl, hnames, hkept⟩ := h
  by_cases hup : c = up
  · subst hup
    rcases List.eq_nil_or_concat names with rfl | ⟨names, d, rfl⟩
    · rw [List.append_nil, step_up_ups hskip]
      refine ⟨k + 1, [], (List.append_nil _).symm, List.not_mem_nil, fun d hd => ?_⟩
      rwa [List.eq_of_mem_replicate hd]
    · rw [List.concat_eq_append, List.mem_append, List.mem_singleton, not_or] at hnames
      rw [List.concat_eq_append, ← List.append_assoc, step_up hskip (Ne.symm hnames.2)]
      refine ⟨k, names, rfl, hnames.1, fun e he => hkept e ?_⟩
      rw [List.concat_eq_append, ← List.append_assoc]
      exact List.mem_append_left _ he
  · rw [step_name hskip hup]
    refine ⟨k, names ++ [c], List.append_assoc _ _ _, ?_, fun d hd => ?_⟩
    · rw [List.mem_append, List.mem_singleton, not_or]
      exact ⟨hnames, Ne.symm hup⟩
    · rcases List.mem_append.mp hd with hd | hd
      · exact hkept d hd
      · rwa [List.mem_singleton.mp hd]

lemma foldl_step_normal {stack : List C} (h : Normal skip up stack) (cs : List C) :
    Normal skip up (cs.foldl (step skip up) stack) := by
  induction cs generalizing stack with
  | nil => exact h
  | cons c cs ih => exact ih (step_normal h c)

omit [DecidableEq C] in
lemma normal_nil : Normal skip up [] := ⟨0, [], rfl, List.not_mem_nil, fun _ h => nomatch h⟩

lemma mem_step {stack : List C} {c d : C} (h : d ∈ step skip up stack c) : d ∈ stack ∨ d = c := by
  rw [step] at h
  split_ifs at h
  · exact Or.inl h
  · exact Or.inl ((List.dropLast_subset _) h)
  · exact (List.mem_append.mp h).imp_right List.mem_singleton.mp

lemma mem_foldl_step {cs stack : List C} {d : C} (h : d ∈ cs.foldl (step skip up) stack) :
    d ∈ stack ∨ d ∈ cs := by
  induction cs generalizing stack with
  | nil => exact Or.inl h
  | cons c cs ih =>
    rcases ih h with h | h
    · refine (mem_step h).imp_right ?_
      rintro rfl
      exact List.mem_cons_self
    · exact Or.inr (List.mem_cons_of_mem c h)

/-- **What is kept** is normal. -/
theorem normalize_normal (cs : List C) : Normal skip up (normalize skip up cs) :=
  foldl_step_normal normal_nil cs

/-! ## Nothing to do -/

/-- Names are put on top of each other. -/
lemma foldl_step_names {names : List C} (hskip : ∀ c ∈ names, skip c = false) (hup : up ∉ names)
    (stack : List C) : names.foldl (step skip up) stack = stack ++ names := by
  induction names generalizing stack with
  | nil => rw [List.foldl_nil, List.append_nil]
  | cons c names ih =>
    rw [List.mem_cons, not_or] at hup
    rw [List.foldl_cons, step_name (hskip c List.mem_cons_self) (Ne.symm hup.1),
      ih (fun d hd => hskip d (List.mem_cons_of_mem c hd)) hup.2, List.append_assoc]
    rfl

lemma foldl_step_ups (hskip : skip up = false) (k j : ℕ) :
    (List.replicate k up).foldl (step skip up) (List.replicate j up)
      = List.replicate (j + k) up := by
  induction k generalizing j with
  | zero => rfl
  | succ k ih =>
    rw [List.replicate_succ, List.foldl_cons, step_up_ups hskip, ih, Nat.add_right_comm,
      Nat.add_assoc]

/-- **What is kept** is kept when it is read again. -/
theorem normalize_of_normal (hskip : skip up = false) {stack : List C} (h : Normal skip up stack) :
    normalize skip up stack = stack := by
  obtain ⟨k, names, rfl, hnames, hkept⟩ := h
  have hups := foldl_step_ups hskip k 0
  rw [List.replicate_zero, Nat.zero_add] at hups
  rw [normalize, List.foldl_append, hups,
    foldl_step_names (fun c hc => hkept c (List.mem_append_right _ hc)) hnames]

/-! ## Nothing is kept -/

/-- A component that leads upwards at the bottom stays there. -/
lemma foldl_step_bottom (cs : List C) {stack : List C} (h : stack.head? = some up) :
    (cs.foldl (step skip up) stack).head? = some up := by
  induction cs generalizing stack with
  | nil => exact h
  | cons c cs ih =>
    refine ih ?_
    obtain ⟨t, rfl⟩ := List.head?_eq_some_iff.mp h
    rw [step]
    split_ifs with hc hpop
    · rfl
    · rcases List.eq_nil_or_concat t with rfl | ⟨t, d, rfl⟩
      · exact absurd rfl hpop.2.2
      · rw [List.concat_eq_append, ← List.cons_append, List.dropLast_concat]
        rfl
    · rfl

lemma foldl_step_eq_nil_iff (hskip : skip up = false) (cs : List C) {stack : List C}
    (hstack : up ∉ stack) :
    cs.foldl (step skip up) stack = [] ↔ level skip up stack.length cs = some 0 := by
  induction cs generalizing stack with
  | nil => simp [level]
  | cons c cs ih =>
    rw [List.foldl_cons]
    simp only [level]
    by_cases hc : skip c = true
    · rw [step_skip hc, if_pos hc]
      exact ih hstack
    rw [Bool.not_eq_true] at hc
    rw [if_neg (by simp [hc])]
    by_cases hup : c = up
    · subst hup
      rw [if_pos rfl]
      rcases List.eq_nil_or_concat stack with rfl | ⟨stack, d, rfl⟩
      · have hups := step_up_ups hc 0
        rw [List.replicate_zero] at hups
        have hbottom : (cs.foldl (step skip c) (List.replicate 1 c)).head? = some c :=
          foldl_step_bottom cs rfl
        rw [hups]
        refine iff_of_false (fun h => ?_) (by simp)
        rw [h] at hbottom
        exact nomatch hbottom
      · rw [List.concat_eq_append] at hstack ⊢
        rw [List.mem_append, List.mem_singleton, not_or] at hstack
        rw [step_up hc (Ne.symm hstack.2), List.length_append, List.length_singleton]
        exact ih hstack.1
    · rw [if_neg hup, step_name hc hup]
      have hnew : up ∉ stack ++ [c] := by
        rw [List.mem_append, List.mem_singleton, not_or]
        exact ⟨hstack, Ne.symm hup⟩
      have hrest := ih hnew
      rwa [List.length_append, List.length_singleton] at hrest

/-- **Nothing is kept** exactly if each name is taken away and nothing else is. -/
theorem normalize_eq_nil_iff (hskip : skip up = false) (cs : List C) :
    normalize skip up cs = [] ↔ level skip up 0 cs = some 0 :=
  foldl_step_eq_nil_iff hskip cs List.not_mem_nil

/-! ## Upwards -/

/-- As many components that lead upwards as there are names to take away -/
lemma foldl_step_up (hskip : skip up = false) {names : List C} (hnames : up ∉ names) (stack : List C) :
    (List.replicate names.length up).foldl (step skip up) (stack ++ names) = stack := by
  induction names using List.reverseRecOn with
  | nil => rw [List.append_nil]; rfl
  | append_singleton names c ih =>
    rw [List.mem_append, List.mem_singleton, not_or] at hnames
    rw [List.length_append, List.length_singleton, List.replicate_succ, List.foldl_cons,
      ← List.append_assoc, step_up hskip (Ne.symm hnames.2)]
    exact ih hnames.1

end Nstd.Components
