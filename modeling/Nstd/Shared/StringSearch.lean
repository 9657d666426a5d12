import Nstd.Core.CStrings

/-!
# The last occurrence in a text

* `findLast`, `findLastOf` — the functions of that name for C strings, which share a loop.
* `Returns` — enough rounds of a loop give a result; `Returns.stop`, `Returns.next` — in the first round,
  and in a later one.
* `findLastLoop_returns` — the loop ends with the last place if the search gives the first one from any
  place on, and no place is at the end of the text.
* **`findLast_iff`** — both functions return the last occurrence exactly for strings that are not
  empty.

The loop steps one byte behind every place that it finds.  An empty string is also found at the end of
the text, and behind that is no text.
-/

namespace Nstd.Strings

open CStrings (strstr strpbrk First Last Occurs OneOf)

/-! ## Functions -/

/-- The loop of `findLast` and `findLastOf`, for a number of rounds; `search i` is the call of `strstr`
    or `strpbrk` from `i` on. -/
def findLastLoop (search : ℕ → Option (Option ℕ)) : ℕ → Option ℕ → Option ℕ → Option (Option ℕ)
  | 0, _, _ => none
  | _ + 1, result, none => some result
  | n + 1, _, some found => do
    let next ← search (found + 1)
    findLastLoop search n (some found) next

/-- `findLast(const char* in, const char* str)`, where the loop goes round `n` times at most -/
def findLast (text str : List UInt8) (n : ℕ) : Option (Option ℕ) := do
  let found ← strstr text str 0
  findLastLoop (strstr text str) n none found

/-- `findLastOf(const char* in, const char* chars)` -/
def findLastOf (text chars : List UInt8) (n : ℕ) : Option (Option ℕ) := do
  let found ← strpbrk text chars 0
  findLastLoop (strpbrk text chars) n none found

/-- Enough rounds give a result. -/
def Returns {α : Type} (f : ℕ → Option α) (r : α) : Prop := ∃ n, ∀ k ≥ n, f k = some r

/-! ## Rounds -/

section

variable {α β : Type} {f g : ℕ → Option α} {r r' : α}

/-- A loop that stops in its first round -/
lemma Returns.stop (hf : ∀ n, f (n + 1) = some r) : Returns f r := by
  refine ⟨1, fun n hn => ?_⟩
  rw [← Nat.sub_add_cancel hn]
  exact hf (n - 1)

/-- A loop that goes round once more -/
lemma Returns.next (h : Returns g r) (hf : ∀ n, f (n + 1) = g n) : Returns f r := by
  obtain ⟨k, hk⟩ := h
  refine ⟨k + 1, fun n hn => ?_⟩
  obtain ⟨m, rfl⟩ := Nat.exists_eq_add_of_le' (Nat.le_of_add_left_le hn)
  rw [hf m]
  exact hk m (Nat.le_of_succ_le_succ hn)

lemma Returns.map (h : Returns f r) (g : α → β) : Returns (fun n => (f n).map g) (g r) := by
  obtain ⟨k, hk⟩ := h
  exact ⟨k, fun n hn => by simp [hk n hn]⟩

/-- There is one result. -/
lemma Returns.unique (h : Returns f r) (h' : Returns f r') : r = r' := by
  obtain ⟨k, hk⟩ := h
  obtain ⟨k', hk'⟩ := h'
  exact Option.some.inj ((hk _ (Nat.le_max_left k k')).symm.trans (hk' _ (Nat.le_max_right k k')))

/-- A loop that no number of rounds is enough for -/
lemma not_returns (h : ∀ n, f n = none) : ¬ Returns f r := by
  rintro ⟨k, hk⟩
  exact nomatch (h k).symm.trans (hk k (Nat.le_refl k))

end

/-! ## The loop -/

variable {search : ℕ → Option (Option ℕ)} {P : ℕ → Prop} {n : ℕ}

/-- The place that is found is the last one up to there. -/
lemma last_found {i m : ℕ} (h : First P i (some m)) : Last (fun j => j < m + 1 ∧ P j) (some m) :=
  ⟨⟨Nat.lt_succ_self m, h.2.1⟩, fun _ hk hj => absurd hj.1 (by omega)⟩

/-- If nothing is found, the last place is in front. -/
lemma last_of_none {i : ℕ} {result : Option ℕ} (hresult : Last (fun j => j < i ∧ P j) result)
    (h : First P i none) : Last P result := by
  have hfront : ∀ j, P j → j < i := fun j hj => Nat.not_le.mp fun hle => h j hle hj
  cases result with
  | none => exact fun j hj => hresult j ⟨hfront j hj, hj⟩
  | some m => exact ⟨hresult.1.2, fun k hk hP => hresult.2 k hk ⟨hfront k hP, hP⟩⟩

/-- **The loop ends** with the last place: `result` is the last one in front of `i`, and `found` the
    first one from `i` on. -/
theorem findLastLoop_returns (hsearch : ∀ i ≤ n, ∃ r, search i = some r ∧ First P i r)
    (hend : ∀ i, P i → i < n) {k : ℕ} : ∀ {i : ℕ} {result found : Option ℕ}, n - i < k →
      Last (fun j => j < i ∧ P j) result → First P i found →
        ∃ r, Last P r ∧ Returns (fun rounds => findLastLoop search rounds result found) r := by
  induction k with
  | zero => exact fun hk => absurd hk (Nat.not_lt_zero _)
  | succ k ih =>
    intro i result found hk hresult hfound
    cases found with
    | none => exact ⟨result, last_of_none hresult hfound, .stop fun _ => rfl⟩
    | some m =>
      have hm : m < n := hend m hfound.2.1
      have hi : i ≤ m := hfound.1
      obtain ⟨next, hnext, hfirst⟩ := hsearch (m + 1) hm
      obtain ⟨r, hr, hrun⟩ := ih (by omega) (last_found hfound) hfirst
      refine ⟨r, hr, hrun.next fun rounds => ?_⟩
      rw [findLastLoop, hnext]
      rfl

/-- **The loop and the search in front of it** -/
theorem search_returns (hsearch : ∀ i ≤ n, ∃ r, search i = some r ∧ First P i r)
    (hend : ∀ i, P i → i < n) : ∃ r, Last P r
      ∧ Returns (fun rounds => (search 0).bind (findLastLoop search rounds none)) r := by
  obtain ⟨found, hfound, hfirst⟩ := hsearch 0 (Nat.zero_le n)
  rw [hfound]
  exact findLastLoop_returns hsearch hend (Nat.lt_succ_self (n - 0))
    (show Last (fun j => j < 0 ∧ P j) none from fun j hj => absurd hj.1 (Nat.not_lt_zero j)) hfirst

/-- No number of rounds is enough if something is found wherever the search begins. -/
lemma findLastLoop_none (hsearch : ∀ i, search i = none ∨ ∃ m, search i = some (some m)) (n : ℕ) :
    ∀ (result : Option ℕ) (m : ℕ), findLastLoop search n result (some m) = none := by
  induction n with
  | zero => exact fun _ _ => rfl
  | succ n ih =>
    intro result m
    rw [findLastLoop]
    rcases hsearch (m + 1) with h | ⟨m', h⟩
    · rw [h]
      rfl
    · rw [h]
      exact ih (some m) m'

/-! ## The functions -/

variable {v w : List UInt8}

/-- **`findLast`** of a string that is not empty -/
theorem findLast_returns (hv : 0 ∉ v) (hw : 0 ∉ w) (hne : w ≠ []) (rest rest' : List UInt8) :
    ∃ r, Last (Occurs w v) r ∧ Returns (findLast (v ++ 0 :: rest) (w ++ 0 :: rest')) r := by
  refine search_returns (fun i hi => CStrings.strstr_first hv hw rest rest' hi) fun i hi => ?_
  have hle := hi.2.length_le
  have hpos := List.length_pos_iff.mpr hne
  rw [List.length_drop] at hle
  omega

/-- **`findLastOf`** -/
theorem findLastOf_returns (hv : 0 ∉ v) (hw : 0 ∉ w) (rest rest' : List UInt8) :
    ∃ r, Last (OneOf w v) r ∧ Returns (findLastOf (v ++ 0 :: rest) (w ++ 0 :: rest')) r := by
  refine search_returns (fun i hi => CStrings.strpbrk_first hv hw rest rest' hi) fun i hi => ?_
  obtain ⟨c, hc, -⟩ := hi
  exact (List.getElem?_eq_some_iff.mp hc).1

/-- The empty string is found wherever there is a text, and the search goes on behind the last one. -/
theorem findLast_empty (text rest : List UInt8) (n : ℕ) : findLast text (0 :: rest) n = none := by
  have hsearch : ∀ i, strstr text (0 :: rest) i = none ∨
      ∃ m, strstr text (0 :: rest) i = some (some m) := by
    intro i
    cases htext : Texts.upTo 0 (text.drop i) with
    | none => exact .inl (by simp [strstr, htext])
    | some t => exact .inr ⟨i, by simp [strstr, htext, Texts.upTo, Texts.find_nil]⟩
  rcases hsearch 0 with h | ⟨m, h⟩
  · simp [findLast, h]
  · simp [findLast, h, findLastLoop_none hsearch]

/-- The empty string is at the end of a text, too. -/
lemma occurs_empty (v : List UInt8) : Last (Occurs [] v) (some v.length) :=
  ⟨⟨Nat.le_refl _, List.nil_prefix⟩, fun _ hk hoccurs => absurd hoccurs.1 (Nat.not_le.mpr hk)⟩

/-- **The last occurrence.**  In the memory of any text, which ends with the terminator, `findLast`
    returns the last place where a string occurs, and `findLastOf` that of a character of some, exactly
    if the string is not empty. -/
theorem findLast_iff (text str chars : CString) :
    ((∃ r, Last (Occurs str.bytes text.bytes) r ∧ Returns (findLast text.memory str.memory) r) ∧
      ∃ r, Last (OneOf chars.bytes text.bytes) r ∧
        Returns (findLastOf text.memory chars.memory) r) ↔ str.bytes ≠ [] := by
  refine ⟨?_, fun hne => ⟨findLast_returns text.noNul str.noNul hne [] [],
    findLastOf_returns text.noNul chars.noNul [] []⟩⟩
  rintro ⟨⟨r, -, hrun⟩, -⟩ hnil
  rw [CString.memory, CString.memory, hnil] at hrun
  exact not_returns (findLast_empty _ []) hrun

/-- The end of `"a"`, where the empty string occurs for the last time, is not returned. -/
theorem findLast_empty_needle : Last (Occurs [] [97]) (some 1) ∧
    (∀ n, findLast [97, 0] [0] n = none) ∧
      ¬ ∃ r, Last (Occurs [] [97]) r ∧ Returns (findLast [97, 0] [0]) r := by
  refine ⟨occurs_empty [97], findLast_empty [97, 0] [], ?_⟩
  rintro ⟨r, -, hrun⟩
  exact not_returns (findLast_empty _ []) hrun

/-- Occurrences that overlap -/
example : findLast [97, 97, 97, 0] [97, 97, 0] 3 = some (some 1) := by decide

end Nstd.Strings
