import Mathlib.Data.List.DropRight
import Nstd.File.SimplifyPath

/-!
# `File::getDirectoryName`, `getBaseName`, `getStem` and `getExtension`

Each of the functions scans a path from its end on its own.

* `getDirectoryName`, `getBaseName`, `getStem`, `getExtension` — the code.
* `Cut` — a path, cut behind its last separator.
* `getStem_of_dot`, `getExtension_of_dot` — the stem ends at the first dot of the base name, and the
  extension begins at the last one.
* **`decomposed_iff`** — the parts make up the path unless the base name has several dots; `two_dots`.

What is between the two dots is then in neither part.
-/

namespace Nstd.File

/-! ## Functions -/

/-- `getDirectoryName` -/
def getDirectoryName (file : List UInt8) : List UInt8 :=
  match scanBack isSlash file file.length with
  | some pos => file.take pos
  | none => bytes "."

/-- `String::compare(s1, s2) == 0` -/
def sameChars (s1 s2 : List UInt8) : Bool := s1.takeWhile (· ≠ 0) = s2.takeWhile (· ≠ 0)

/-- What follows `removeExtension` in `getBaseName`, for the `result` found there -/
def removeExtension (result extension : List UInt8) : List UInt8 :=
  let resultLen := result.length
  let extensionLen := extension.length
  if extensionLen ≠ 0 then
    if extension.head? = some (ch '.') then
      if resultLen ≥ extensionLen ∧ sameChars (result.drop (resultLen - extensionLen)) extension then
        result.take (resultLen - extensionLen)
      else result
    else
      let extensionLenPlus1 := extensionLen + 1
      if resultLen ≥ extensionLenPlus1 ∧ result[resultLen - extensionLenPlus1]? = some (ch '.') ∧
          sameChars (result.drop (resultLen - extensionLen)) extension then
        result.take (resultLen - extensionLenPlus1)
      else result
  else result

/-- `getBaseName` -/
def getBaseName (file : List UInt8) (extension : List UInt8 := []) : List UInt8 :=
  match scanBack isSlash file file.length with
  | some pos => removeExtension (file.drop (pos + 1)) extension
  | none => removeExtension file extension

/-- The loop of `getStem`: `dot` and `result` at its end -/
def stemLoop (file : List UInt8) : ℕ → Option ℕ → Option ℕ × ℕ
  | 0, dot => (dot, 0)
  | pos + 1, dot =>
    if file[pos]? = some (ch '.') then stemLoop file pos (some pos)
    else if file[pos]?.any isSlash then (dot, pos + 1)
    else stemLoop file pos dot

/-- `getStem` -/
def getStem (file : List UInt8) (extension : List UInt8 := []) : List UInt8 :=
  if extension ≠ [] then getBaseName file extension
  else
    let (dot, result) := stemLoop file file.length none
    let resultLen :=
      match dot with
      | some dot => dot - result
      | none => file.length - result
    (file.drop result).take resultLen

/-- The loop of `getExtension` -/
def extensionLoop (file : List UInt8) : ℕ → List UInt8
  | 0 => []
  | pos + 1 =>
    if file[pos]? = some (ch '.') then file.drop (pos + 1)
    else if file[pos]?.any isSlash then []
    else extensionLoop file pos

/-- `getExtension` -/
def getExtension (file : List UInt8) : List UInt8 := extensionLoop file file.length

/-! ## A path, cut -/

/-- A path is what is in front of its last separator, if there is one, and a name behind it. -/
structure Cut (front base : List UInt8) : Prop where
  front : front = [] ∨ ∃ dir sep, isSlash sep = true ∧ front = dir ++ [sep]
  base : ∀ c ∈ base, isSlash c = false

/-- The name behind the last separator -/
def lastName (path : List UInt8) : List UInt8 := path.rtakeWhile fun c => !isSlash c

variable {front base s t : List UInt8} {dot : Option ℕ}

lemma exists_cut (path : List UInt8) : ∃ front, Cut front (lastName path) ∧
    path = front ++ lastName path := by
  have hsplit : path.rdropWhile (fun c => !isSlash c) ++ lastName path = path := by
    rw [lastName, List.rdropWhile, List.rtakeWhile, ← List.reverse_append,
      List.takeWhile_append_dropWhile, List.reverse_reverse]
  refine ⟨path.rdropWhile fun c => !isSlash c, ⟨?_, fun c hc => ?_⟩, hsplit.symm⟩
  · refine or_iff_not_imp_left.mpr fun hne => ?_
    have hlast := List.rdropWhile_last_not (fun c => !isSlash c) path hne
    exact ⟨_, _, by simpa using hlast, (List.dropLast_append_getLast hne).symm⟩
  · simpa using List.mem_rtakeWhile_imp hc

lemma dot_ne_slash : isSlash (ch '.') = false := by decide

lemma getElem?_cut (front base : List UInt8) (n : ℕ) :
    (front ++ base)[front.length + n]? = base[n]? := by
  simp [List.getElem?_append_right]

/-- What stands in a name is no separator. -/
lemma Cut.any_eq_false (h : Cut front base) (n : ℕ) : base[n]?.any isSlash = false := by
  cases hc : base[n]? with
  | none => rfl
  | some c => exact h.base c (List.mem_of_getElem? hc)

lemma getBaseName_cut (h : Cut front base) : getBaseName (front ++ base) = base := by
  rcases h.front with rfl | ⟨dir, sep, hsep, rfl⟩
  · rw [List.nil_append, getBaseName, scanBack_none h.base]
    simp [removeExtension]
  · rw [List.append_assoc, List.singleton_append, getBaseName, scanBack_append hsep dir h.base]
    simp [removeExtension]

lemma getDirectoryName_cut {dir : List UInt8} {sep : UInt8} (hsep : isSlash sep = true)
    (h : Cut (dir ++ [sep]) base) : getDirectoryName (dir ++ [sep] ++ base) = dir := by
  rw [List.append_assoc, List.singleton_append, getDirectoryName, scanBack_append hsep dir h.base]
  simp

/-! ## The stem -/

/-- The loop ends at the separator, or at the beginning. -/
lemma stemLoop_front (h : Cut front base) (dot : Option ℕ) :
    stemLoop (front ++ base) front.length dot = (dot, front.length) := by
  rcases h.front with rfl | ⟨dir, sep, hsep, rfl⟩
  · rfl
  · have hget : (dir ++ [sep] ++ base)[dir.length]? = some sep := by simp
    have hdot : sep ≠ ch '.' := by
      rintro rfl
      simp [dot_ne_slash] at hsep
    rw [List.length_append, List.length_singleton, stemLoop, hget, if_neg (by simpa using hdot)]
    simp [hsep]

/-- Where there is no dot, the loop goes on. -/
lemma stemLoop_noDot (h : Cut front base) {n : ℕ} (hdot : ∀ i < n, base[i]? ≠ some (ch '.')) :
    stemLoop (front ++ base) (front.length + n) dot = (dot, front.length) := by
  induction n with
  | zero => exact stemLoop_front h dot
  | succ n ih =>
    rw [← Nat.add_assoc, stemLoop, getElem?_cut, if_neg (hdot n (Nat.lt_succ_self n)),
      h.any_eq_false n]
    exact ih fun i hi => hdot i (Nat.lt_succ_of_lt hi)

/-- The last dot that the loop comes by is the first one of the name. -/
lemma stemLoop_dot (h : Cut front (s ++ ch '.' :: t)) (hs : ch '.' ∉ s) (n : ℕ) :
    stemLoop (front ++ (s ++ ch '.' :: t)) (front.length + s.length + 1 + n) dot
      = (some (front.length + s.length), front.length) := by
  induction n generalizing dot with
  | zero =>
    have hget : (s ++ ch '.' :: t)[s.length]? = some (ch '.') := by simp
    have hbefore : ∀ i < s.length, (s ++ ch '.' :: t)[i]? ≠ some (ch '.') := by
      intro i hi hdot
      rw [List.getElem?_append_left hi] at hdot
      exact hs (List.mem_of_getElem? hdot)
    rw [Nat.add_zero, stemLoop, getElem?_cut, if_pos hget]
    exact stemLoop_noDot h hbefore
  | succ n ih =>
    have hplace : front.length + s.length + 1 + n = front.length + (s.length + 1 + n) := by omega
    rw [← Nat.add_assoc, stemLoop, hplace, getElem?_cut, h.any_eq_false,
      if_neg Bool.false_ne_true, ← hplace]
    split_ifs with hdot
    · exact ih
    · exact ih

lemma getStem_of_noDot (h : Cut front base) (hdot : ch '.' ∉ base) : getStem (front ++ base) = base := by
  have hnone : ∀ i < base.length, base[i]? ≠ some (ch '.') :=
    fun i _ hget => hdot (List.mem_of_getElem? hget)
  rw [getStem, List.length_append, stemLoop_noDot h hnone]
  simp

/-- **The stem** ends at the first dot. -/
lemma getStem_of_dot (h : Cut front (s ++ ch '.' :: t)) (hs : ch '.' ∉ s) :
    getStem (front ++ (s ++ ch '.' :: t)) = s := by
  have hlen : (front ++ (s ++ ch '.' :: t)).length = front.length + s.length + 1 + t.length := by
    simp
    omega
  rw [getStem, hlen, stemLoop_dot h hs]
  simp

/-! ## The extension -/

lemma extensionLoop_front (h : Cut front base) : extensionLoop (front ++ base) front.length = [] := by
  rcases h.front with rfl | ⟨dir, sep, hsep, rfl⟩
  · rfl
  · have hget : (dir ++ [sep] ++ base)[dir.length]? = some sep := by simp
    have hdot : sep ≠ ch '.' := by
      rintro rfl
      simp [dot_ne_slash] at hsep
    rw [List.length_append, List.length_singleton, extensionLoop, hget,
      if_neg (by simpa using hdot)]
    simp [hsep]

lemma getExtension_of_noDot (h : Cut front base) (hdot : ch '.' ∉ base) :
    getExtension (front ++ base) = [] := by
  have hloop : ∀ n, extensionLoop (front ++ base) (front.length + n) = [] := by
    intro n
    induction n with
    | zero => exact extensionLoop_front h
    | succ n ih =>
      have hne : base[n]? ≠ some (ch '.') := fun hget => hdot (List.mem_of_getElem? hget)
      rw [← Nat.add_assoc, extensionLoop, getElem?_cut, if_neg hne, h.any_eq_false n]
      exact ih
  rw [getExtension, List.length_append]
  exact hloop base.length

/-- **The extension** begins behind the last dot. -/
lemma getExtension_of_dot (h : Cut front (s ++ ch '.' :: t)) (ht : ch '.' ∉ t) :
    getExtension (front ++ (s ++ ch '.' :: t)) = t := by
  have hloop : ∀ n ≤ t.length, extensionLoop (front ++ (s ++ ch '.' :: t))
      (front.length + (s.length + 1 + n)) = t := by
    intro n
    induction n with
    | zero =>
      intro _
      have hget : (s ++ ch '.' :: t)[s.length]? = some (ch '.') := by simp
      rw [Nat.add_zero, ← Nat.add_assoc, extensionLoop, getElem?_cut, if_pos hget, Nat.add_assoc,
        List.drop_append]
      simp
    | succ n ih =>
      intro hn
      have hget : (s ++ ch '.' :: t)[s.length + 1 + n]? = t[n]? := by
        rw [Nat.add_assoc, getElem?_cut, Nat.add_comm, List.getElem?_cons_succ]
      have hne : (s ++ ch '.' :: t)[s.length + 1 + n]? ≠ some (ch '.') := by
        rw [hget]
        exact fun hdot => ht (List.mem_of_getElem? hdot)
      rw [← Nat.add_assoc, ← Nat.add_assoc, extensionLoop, Nat.add_assoc, getElem?_cut,
        if_neg hne, h.any_eq_false]
      exact ih (Nat.le_of_succ_le hn)
  have hlen : (front ++ (s ++ ch '.' :: t)).length = front.length + (s.length + 1 + t.length) := by
    simp
    omega
  rw [getExtension, hlen]
  exact hloop t.length (Nat.le_refl _)

/-! ## The parts -/

/-- What is to hold of the parts of a path -/
def Decomposed (path : List UInt8) : Prop :=
  ((∃ c ∈ path, isSlash c = true) →
    ∃ sep, isSlash sep = true ∧ path = getDirectoryName path ++ sep :: getBaseName path) ∧
  (∀ c ∈ getBaseName path, isSlash c = false) ∧
  (ch '.' ∈ getBaseName path →
    getBaseName path = getStem path ++ bytes "." ++ getExtension path) ∧
  (ch '.' ∉ getBaseName path → getStem path = getBaseName path ∧ getExtension path = [])

/-- The first dot and the last one are the same exactly if there are no others. -/
lemma parts_iff {first rest others last : List UInt8} (hfirst : ch '.' ∉ first)
    (hlast : ch '.' ∉ last) (h : first ++ ch '.' :: rest = others ++ ch '.' :: last) :
    first ++ ch '.' :: rest = first ++ bytes "." ++ last ↔
      (first ++ ch '.' :: rest).count (ch '.') ≤ 1 := by
  have hdot : bytes "." = [ch '.'] := rfl
  constructor
  · intro hparts
    rw [hparts, hdot]
    simp [List.count_eq_zero_of_not_mem hfirst, List.count_eq_zero_of_not_mem hlast]
  · intro hcount
    have hrest : ch '.' ∉ rest := by
      rw [List.count_append, List.count_cons_self] at hcount
      exact List.count_eq_zero.mp (by omega)
    have hothers : ch '.' ∉ others := by
      rw [h, List.count_append, List.count_cons_self] at hcount
      exact List.count_eq_zero.mp (by omega)
    obtain ⟨-, -, rfl⟩ := (List.append_cons_inj_of_notMem hothers hlast).mp h.symm
    simp [hdot]

/-- A name with a dot is cut at the first one, and at the last one. -/
lemma exists_dots (h : ch '.' ∈ base) : ∃ first rest others last, ch '.' ∉ first ∧
    ch '.' ∉ last ∧ base = first ++ ch '.' :: rest ∧ base = others ++ ch '.' :: last := by
  obtain ⟨first, rest, hbase, hfirst⟩ := List.eq_append_cons_of_mem h
  obtain ⟨last, others, hreverse, hlast⟩ := List.eq_append_cons_of_mem (List.mem_reverse.mpr h)
  refine ⟨first, rest, others.reverse, last.reverse, hfirst, by simpa using hlast, hbase, ?_⟩
  have hback := congrArg List.reverse hreverse
  simpa using hback

lemma sep_iff_of_cut (h : Cut front base) : (∃ c ∈ front ++ base, isSlash c = true) →
    ∃ sep, isSlash sep = true ∧
      front ++ base = getDirectoryName (front ++ base) ++ sep :: getBaseName (front ++ base) := by
  rintro ⟨c, hc, hsep⟩
  rw [getBaseName_cut h]
  rcases h.front with rfl | ⟨dir, sep, hslash, rfl⟩
  · have hno := h.base c hc
    simp [hno] at hsep
  · refine ⟨sep, hslash, ?_⟩
    rw [getDirectoryName_cut hslash h]
    simp

/-- **The parts** of a path make it up exactly if there is at most one dot behind its last separator. -/
theorem decomposed_iff (path : CString) :
    Decomposed path.bytes ↔ (lastName path.bytes).count (ch '.') ≤ 1 := by
  obtain ⟨front, hcut, hpath⟩ := exists_cut path.bytes
  generalize lastName path.bytes = base at hcut hpath ⊢
  rw [Decomposed, hpath, getBaseName_cut hcut]
  have hsep := sep_iff_of_cut hcut
  rw [getBaseName_cut hcut] at hsep
  by_cases hdot : ch '.' ∈ base
  · obtain ⟨first, rest, others, last, hfirst, hlast, hbase, hbase'⟩ := exists_dots hdot
    have hstem : getStem (front ++ base) = first := by
      rw [hbase] at hcut ⊢
      exact getStem_of_dot hcut hfirst
    have hextension : getExtension (front ++ base) = last := by
      rw [hbase'] at hcut ⊢
      exact getExtension_of_dot hcut hlast
    have hparts := parts_iff hfirst hlast (hbase.symm.trans hbase')
    rw [← hbase] at hparts
    rw [hstem, hextension, ← hparts]
    constructor
    · rintro ⟨-, -, hmake, -⟩
      exact hmake hdot
    · intro hmake
      exact ⟨hsep, hcut.base, fun _ => hmake, fun hno => absurd hdot hno⟩
  · have hcount : base.count (ch '.') ≤ 1 := by
      rw [List.count_eq_zero_of_not_mem hdot]
      exact Nat.zero_le 1
    refine iff_of_true ⟨hsep, hcut.base, fun h => absurd h hdot, fun _ => ?_⟩ hcount
    exact ⟨getStem_of_noDot hcut hdot, getExtension_of_noDot hcut hdot⟩

/-- The name of an archive -/
def archive : CString := ⟨bytes "a.tar.gz", by decide⟩

/-- What is between two dots belongs to neither part. -/
theorem two_dots : ¬ ∀ path : CString, Decomposed path.bytes := by
  intro h
  obtain ⟨-, -, hparts, -⟩ := h archive
  exact absurd (hparts (by decide)) (by decide)

end Nstd.File
