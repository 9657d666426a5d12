import Nstd.Core.Bytes
import Nstd.Core.Texts

/-!
# Searching in C strings

* `strstr`, `strpbrk`, `strchr` — the functions of the C library, on memory that may have no end.
* `First`, `Last` — the first place from another one on, and the last one.
* `Occurs`, `OneOf` — where a string is in a text, and where a character of some is.
* `strstr_eq`, `strpbrk_eq`, `strchr_eq` — what is searched is in front of the first zero, whatever is
  behind it.
* **`strstr_first`**, **`strpbrk_first`** — what is found from a place on is the first one.
-/

namespace Nstd

/-- The memory of a text: its bytes and the terminator, and nothing that could be read behind it -/
def CString.memory (s : CString) : List UInt8 := s.bytes ++ [0]

namespace CStrings

open Texts (upTo find)

/-! ## Functions -/

/-- `strstr(p, needle)`, where `p` points into memory, at `i`; it fails if a text has no end. -/
def strstr (str needle : List UInt8) (i : ℕ) : Option (Option ℕ) := do
  let text ← upTo 0 (str.drop i)
  let needle ← upTo 0 needle
  some ((find needle text).map (i + ·))

/-- `strpbrk(p, chars)` -/
def strpbrk (str chars : List UInt8) (i : ℕ) : Option (Option ℕ) := do
  let text ← upTo 0 (str.drop i)
  let chars ← upTo 0 chars
  some ((text.findIdx? (· ∈ chars)).map (i + ·))

/-- `strchr(p, c)`, which finds the terminator, too -/
def strchr (str : List UInt8) (c : UInt8) (i : ℕ) : Option (Option ℕ) := do
  let text ← upTo 0 (str.drop i)
  some (((text ++ [0]).findIdx? (· = c)).map (i + ·))

/-! ## Places -/

/-- The first place from `i` on where something holds, if there is one -/
def First (P : ℕ → Prop) (i : ℕ) : Option ℕ → Prop
  | none => ∀ j, i ≤ j → ¬ P j
  | some j => i ≤ j ∧ P j ∧ ∀ k, i ≤ k → k < j → ¬ P k

/-- The last place where something holds, if there is one -/
def Last (P : ℕ → Prop) : Option ℕ → Prop
  | none => ∀ j, ¬ P j
  | some j => P j ∧ ∀ k, j < k → ¬ P k

/-- A text goes on with `needle`. -/
def Occurs (needle text : List UInt8) (i : ℕ) : Prop := i ≤ text.length ∧ needle <+: text.drop i

/-- In a text is a character of `chars`. -/
def OneOf (chars text : List UInt8) (i : ℕ) : Prop := ∃ c, text[i]? = some c ∧ c ∈ chars

lemma Last.unique {P : ℕ → Prop} {r r' : Option ℕ} (h : Last P r) (h' : Last P r') : r = r' := by
  cases r with
  | none =>
    cases r' with
    | none => rfl
    | some j => exact absurd h'.1 (h j)
  | some i =>
    cases r' with
    | none => exact absurd h.1 (h' i)
    | some j =>
      rcases Nat.lt_trichotomy i j with hlt | rfl | hlt
      · exact absurd h'.1 (h.2 j hlt)
      · rfl
      · exact absurd h.1 (h'.2 i hlt)

/-! ## What is searched -/

variable {v w : List UInt8} {i : ℕ}

/-- A text in memory, from a place in front of its terminator on -/
lemma upTo_drop (rest : List UInt8) (hi : i ≤ v.length) :
    upTo 0 ((v ++ 0 :: rest).drop i) = some ((v.drop i).takeWhile (· ≠ 0)) := by
  refine Texts.upTo_of_prefix ⟨rest, ?_⟩
  rw [List.drop_append_of_le_length hi, List.append_assoc]
  rfl

lemma upTo_memory (rest : List UInt8) : upTo 0 (w ++ 0 :: rest) = some (w.takeWhile (· ≠ 0)) :=
  upTo_drop rest (Nat.zero_le _)

lemma strstr_eq (rest rest' : List UInt8) (hi : i ≤ v.length) :
    strstr (v ++ 0 :: rest) (w ++ 0 :: rest') i
      = some ((find (w.takeWhile (· ≠ 0)) ((v.drop i).takeWhile (· ≠ 0))).map (i + ·)) := by
  rw [strstr, upTo_drop rest hi, upTo_memory rest']
  rfl

lemma strpbrk_eq (rest rest' : List UInt8) (hi : i ≤ v.length) :
    strpbrk (v ++ 0 :: rest) (w ++ 0 :: rest') i
      = some ((((v.drop i).takeWhile (· ≠ 0)).findIdx? (· ∈ w.takeWhile (· ≠ 0))).map (i + ·)) := by
  rw [strpbrk, upTo_drop rest hi, upTo_memory rest']
  rfl

lemma strchr_eq (rest : List UInt8) (c : UInt8) (hi : i ≤ v.length) :
    strchr (v ++ 0 :: rest) c i
      = some ((((v.drop i).takeWhile (· ≠ 0) ++ [0]).findIdx? (· = c)).map (i + ·)) := by
  rw [strchr, upTo_drop rest hi]
  rfl

/-! ## What is found -/

/-- **`strstr`** finds the first occurrence. -/
theorem strstr_first (hv : 0 ∉ v) (hw : 0 ∉ w) (rest rest' : List UInt8) (hi : i ≤ v.length) :
    ∃ r, strstr (v ++ 0 :: rest) (w ++ 0 :: rest') i = some r ∧ First (Occurs w v) i r := by
  refine ⟨_, strstr_eq rest rest' hi, ?_⟩
  rw [Texts.takeWhile_of_not_mem hw,
    Texts.takeWhile_of_not_mem fun h => hv (List.mem_of_mem_drop h)]
  -- places from `i` on are places of what is left
  have hshift : ∀ k, i ≤ k → v.drop k = (v.drop i).drop (k - i) := fun k hk => by
    rw [List.drop_drop, Nat.add_sub_cancel' hk]
  cases hfind : find w (v.drop i) with
  | none =>
    rintro k hk ⟨hle, hbegins⟩
    rw [hshift k hk] at hbegins
    exact Texts.find_eq_none hfind (k - i) (by rw [List.length_drop]; omega) hbegins
  | some j =>
    obtain ⟨hbegins, hle, hbefore⟩ := Texts.find_eq_some hfind
    rw [List.length_drop] at hle
    have hend : i + j ≤ v.length := by omega
    refine ⟨Nat.le_add_right i j, ⟨hend, by rwa [← List.drop_drop]⟩, ?_⟩
    rintro k hk hlt ⟨-, hother⟩
    rw [hshift k hk] at hother
    exact hbefore (k - i) (Nat.sub_lt_left_of_lt_add hk hlt) hother

/-- **`strpbrk`** finds the first character that is one of some. -/
theorem strpbrk_first (hv : 0 ∉ v) (hw : 0 ∉ w) (rest rest' : List UInt8) (hi : i ≤ v.length) :
    ∃ r, strpbrk (v ++ 0 :: rest) (w ++ 0 :: rest') i = some r ∧ First (OneOf w v) i r := by
  refine ⟨_, strpbrk_eq rest rest' hi, ?_⟩
  rw [Texts.takeWhile_of_not_mem hw,
    Texts.takeWhile_of_not_mem fun h => hv (List.mem_of_mem_drop h)]
  have hshift : ∀ k, i ≤ k → v[k]? = (v.drop i)[k - i]? := fun k hk => by
    rw [List.getElem?_drop, Nat.add_sub_cancel' hk]
  cases hfind : (v.drop i).findIdx? (· ∈ w) with
  | none =>
    rintro k hk ⟨c, hc, hmem⟩
    rw [hshift k hk] at hc
    have hnot := List.findIdx?_eq_none_iff.mp hfind c (List.mem_of_getElem? hc)
    exact of_decide_eq_false hnot hmem
  | some j =>
    obtain ⟨hlt, hmem, hbefore⟩ := List.findIdx?_eq_some_iff_getElem.mp hfind
    refine ⟨Nat.le_add_right i j, ⟨(v.drop i)[j], ?_, of_decide_eq_true hmem⟩, ?_⟩
    · rw [hshift _ (Nat.le_add_right i j), Nat.add_sub_cancel_left, List.getElem?_eq_getElem hlt]
    · rintro k hk hkj ⟨c, hc, hmem⟩
      rw [hshift k hk] at hc
      obtain ⟨hlt', rfl⟩ := List.getElem?_eq_some_iff.mp hc
      exact hbefore (k - i) (Nat.sub_lt_left_of_lt_add hk hkj) (decide_eq_true hmem)

end CStrings

end Nstd
