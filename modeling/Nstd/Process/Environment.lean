import Mathlib.Data.List.Lex
import Nstd.Core.NamedTexts
import Nstd.Core.Texts
import Nstd.Process.Opening

/-!
# The environment of a process

Environment variables on POSIX, where the environment is an array of C strings.

* `getEnvironmentVariable`, `getEnvironmentVariables`, `setEnvironmentVariable` — the functions;
  `setenv`, `unsetenv` and `getenv` of the C library do what they are documented to do.
* `childVariables_iff` — **`environment_kept`**: the map that a child is started with is the one it
  reads exactly if no name has an equals sign and nothing a zero.
* `Reads`, `setEnvironmentVariable_spec` — a call writes the entry of a map.
* **`variables_kept`** — after any calls all variables are those of the map, read as a whole or one by
  one, and what the calls return.

An entry is cut at its first equals sign, which is the one that was written behind the name if the name
has none.
-/

namespace Nstd.Environment

open NamedTexts SortedAssoc

open Process (chars prepareEnv childEnv)

/-- Bytes in their order, in which `String::compare` has them -/
@[reducible] def byteOrder : LinearOrder UInt8 where
  le_refl _ := UInt8.le_refl _
  le_trans _ _ _ := UInt8.le_trans
  le_antisymm _ _ := UInt8.le_antisymm
  le_total := UInt8.le_total
  lt_iff_le_not_ge _ _ := by
    rw [UInt8.lt_iff_toNat_lt, UInt8.le_iff_toNat_le, UInt8.le_iff_toNat_le]
    exact lt_iff_le_not_ge
  toDecidableLE := inferInstance

local instance order : LinearOrder UInt8 := byteOrder

/-! ## Functions -/

/-- The sign between a name and a value -/
def equals : UInt8 := 0x3d

/-- `setenv(name, value, 1)` -/
def setenv (environ : List (List UInt8)) (name value : List UInt8) : Option (List (List UInt8)) :=
  if name = [] ∨ equals ∈ name then none else some (put equals name value environ)

/-- `unsetenv(name)` -/
def unsetenv (environ : List (List UInt8)) (name : List UInt8) : Option (List (List UInt8)) :=
  if name = [] ∨ equals ∈ name then none else some (drop equals name environ)

/-- `getenv(name)` -/
def getenv (environ : List (List UInt8)) (name : List UInt8) : Option (List UInt8) :=
  if name = [] then none else valueOf equals name environ

/-- `Process::getEnvironmentVariable` -/
def getEnvironmentVariable (environ : List (List UInt8)) (name defaultValue : List UInt8) : List UInt8 :=
  match getenv environ (chars name) with
  | none => defaultValue
  | some var => var

/-- `Process::getEnvironmentVariables`, which leaves out strings without an equals sign -/
def getEnvironmentVariables (environ : List (List UInt8)) : List (List UInt8 × List UInt8) :=
  insertAll [] (named equals environ)

/-- `Process::setEnvironmentVariable`, with what it returns -/
def setEnvironmentVariable (environ : List (List UInt8)) (name value : List UInt8) :
    Bool × List (List UInt8) :=
  if value = [] then
    match unsetenv environ (chars name) with
    | none => (true, environ)
    -- `unsetenv` returns 0, which is `false`
    | some environ => (false, environ)
  else
    match setenv environ (chars name) (chars value) with
    | none => (false, environ)
    | some environ => (true, environ)

/-- Calls of `setEnvironmentVariable`, with what they return -/
def calls (environ : List (List UInt8)) :
    List (List UInt8 × List UInt8) → List Bool × List (List UInt8)
  | [] => ([], environ)
  | c :: cs =>
    let (result, environ) := setEnvironmentVariable environ c.1 c.2
    let (results, environ) := calls environ cs
    (result :: results, environ)

/-! ## What a child reads -/

lemma chars_start (s : List UInt8) : chars s <+: s := List.takeWhile_prefix _

lemma chars_of_notMem {s : List UInt8} (h : 0 ∉ s) : chars s = s := Texts.takeWhile_of_not_mem h

lemma notMem_chars (s : List UInt8) : 0 ∉ chars s := fun h => by
  have hne := List.mem_takeWhile_imp h
  simp at hne

/-- What a child reads of an entry -/
def childEntry (e : List UInt8 × List UInt8) : Option (List UInt8 × List UInt8) :=
  read equals (chars (write equals e.1 e.2))

lemma named_prepareEnv (environment : List (List UInt8 × List UInt8)) :
    named equals ((prepareEnv environment).map chars) = environment.filterMap childEntry := by
  rw [prepareEnv, List.map_map, named, List.filterMap_map]
  refine List.filterMap_congr fun e _ => ?_
  simp [childEntry, write, bytes, equals, ch]

/-- An entry is read as it is where its name has no equals sign and nothing has a zero. -/
lemma childEntry_of_notMem {e : List UInt8 × List UInt8} (hname : equals ∉ e.1) (hzero : 0 ∉ e.1)
    (hvalue : 0 ∉ e.2) : childEntry e = some e := by
  have hchars : chars (write equals e.1 e.2) = write equals e.1 e.2 :=
    chars_of_notMem (by simp [write, hzero, hvalue, equals])
  rw [childEntry, hchars, read_write hname]

/-- Nothing that is read is longer than the entry. -/
lemma childEntry_le {e e' : List UInt8 × List UInt8} (h : childEntry e = some e') :
    e'.1.length ≤ e.1.length ∧ e'.1.length + e'.2.length ≤ e.1.length + e.2.length := by
  have hlength := length_read h
  have hle := (chars_start (write equals e.1 e.2)).length_le
  refine ⟨(length_name_le (chars_start _) h).1, ?_⟩
  simp only [write, List.length_append, List.length_cons] at hlength hle
  omega

/-- An entry with its length kept is as it has to be. -/
lemma notMem_of_childEntry {e e' : List UInt8 × List UInt8} (h : childEntry e = some e')
    (hname : e'.1.length = e.1.length)
    (hboth : e'.1.length + e'.2.length = e.1.length + e.2.length) :
    equals ∉ e.1 ∧ 0 ∉ e.1 ∧ 0 ∉ e.2 := by
  have hlength := length_read h
  have hchars : chars (write equals e.1 e.2) = write equals e.1 e.2 := by
    refine (chars_start _).eq_of_length ?_
    rw [← hlength]
    simp only [write, List.length_append, List.length_cons]
    omega
  have hzero := notMem_chars (write equals e.1 e.2)
  rw [hchars, write, List.mem_append, List.mem_cons, not_or, not_or] at hzero
  exact ⟨(length_name_le (chars_start _) h).2 hname, hzero.1, hzero.2.2⟩

/-- **What a child reads** of a map is that map exactly if it reads each entry as it is. -/
theorem childVariables_iff {environment : List (List UInt8 × List UInt8)}
    (hsorted : (environment.map fun e => chars e.1).Pairwise (· < ·)) :
    getEnvironmentVariables ((prepareEnv environment).map chars) = environment ↔
      ∀ e ∈ environment, equals ∉ e.1 ∧ 0 ∉ e.1 ∧ 0 ∉ e.2 := by
  rw [getEnvironmentVariables, named_prepareEnv]
  constructor
  · intro h e he
    have hmap : Sorted environment := h ▸ sorted_insertAll sorted_nil _
    obtain ⟨e', he', hkept⟩ := kept_of_read_back hmap h e he
    exact notMem_of_childEntry he'
      (hkept (fun e => e.1.length) fun _ _ h => (childEntry_le h).1)
      (hkept (fun e => e.1.length + e.2.length) fun _ _ h => (childEntry_le h).2)
  · intro h
    have hread : environment.filterMap childEntry = environment := by
      calc environment.filterMap childEntry
          = environment.filterMap some := List.filterMap_congr fun e he =>
            childEntry_of_notMem (h e he).1 (h e he).2.1 (h e he).2.2
        _ = environment := List.filterMap_some
    have hchars : environment.map (fun e => chars e.1) = environment.map Prod.fst :=
      List.map_congr_left fun e he => chars_of_notMem (h e he).2.1
    rw [hchars] at hsorted
    rw [hread]
    exact insertAll_behind hsorted

/-- **The environment of a child.**  A process that `open` or `start` makes has the variables it is given
    exactly if no name has an equals sign and neither a name nor a value has a zero, and those of its
    parent where it is given none. -/
theorem environment_kept {answers : Process.Answers} {s : Process.State} {executable : List UInt8}
    {argv : List Process.Pointer} {streams : BitVec 32}
    {environment : List (List UInt8 × List UInt8)} {r : Process.Request}
    (hsorted : (environment.map fun e => chars e.1).Pairwise (· < ·))
    (h : (Process.openArgv answers s executable argv streams environment).request = some r ∨
      (Process.start answers s executable argv environment).2.2 = some r) :
    (environment ≠ [] → (getEnvironmentVariables r.envp = environment ↔
      ∀ e ∈ environment, equals ∉ e.1 ∧ 0 ∉ e.1 ∧ 0 ∉ e.2)) ∧
    (environment = [] → getEnvironmentVariables r.envp = getEnvironmentVariables answers.environ) := by
  have henvp : r.envp = childEnv answers.environ environment := by
    rcases h with h | h
    · by_cases hopen : Process.CanOpen answers s streams
      · rw [Process.request_openArgv hopen] at h
        rw [← Option.some.inj h]
        rfl
      · rw [Process.request_openArgv_eq_none hopen] at h
        cases h
    · rw [Process.start] at h
      split_ifs at h
      cases hchild : answers.vfork with
      | none =>
        rw [hchild] at h
        cases h
      | some pid =>
        rw [hchild] at h
        rw [← Option.some.inj h]
        rfl
  rw [henvp, childEnv]
  refine ⟨fun hne => ?_, fun hempty => ?_⟩
  · rw [if_neg hne]
    exact childVariables_iff hsorted
  · rw [if_pos hempty]

/-- A child that gets two variables -/
theorem environment_kept_two :
    getEnvironmentVariables (childEnv [] [(bytes "HOME", bytes "/root"), (bytes "N", bytes "a=b")])
      = [(bytes "HOME", bytes "/root"), (bytes "N", bytes "a=b")] :=
  ((@environment_kept Process.bare ⟨0, 0, 0, 0⟩ (bytes "env") [none] 1
    [(bytes "HOME", bytes "/root"), (bytes "N", bytes "a=b")] _ (by decide)
    (Or.inl rfl)).1 (by decide)).mpr (by decide)

/-! ## Calls -/

/-- A name that a variable can have: `chars name` is not empty and has no equals sign. -/
def IsName (name : List UInt8) : Prop := chars name ≠ [] ∧ equals ∉ chars name

instance (name : List UInt8) : Decidable (IsName name) := inferInstanceAs (Decidable (_ ∧ _))

/-- What a call does to a map: an empty value removes the variable. -/
def reference (m : List (List UInt8 × List UInt8)) (c : List UInt8 × List UInt8) :
    List (List UInt8 × List UInt8) :=
  if IsName c.1 then
    if c.2 = [] then erase (chars c.1) m else SortedAssoc.insert (chars c.1) (chars c.2) m
  else m

/-- No two variables have the same name. -/
def Distinct (environ : List (List UInt8)) : Prop :=
  (InsertionMap.keys (named equals environ)).Nodup

instance (environ : List (List UInt8)) : Decidable (Distinct environ) :=
  inferInstanceAs (Decidable (List.Nodup _))

lemma sorted_variables (environ : List (List UInt8)) : Sorted (getEnvironmentVariables environ) :=
  sorted_insertAll sorted_nil _

/-- In the map, a variable has the value of its string. -/
lemma get_variables {environ : List (List UInt8)} (h : Distinct environ) (k : List UInt8) :
    get k (getEnvironmentVariables environ) = InsertionMap.find? k (named equals environ) := by
  rw [getEnvironmentVariables, insertAll_of_nodup h, SortedAssoc.get, Option.or_none]

lemma not_isName_iff {name : List UInt8} : ¬ IsName name ↔ chars name = [] ∨ equals ∈ chars name := by
  rw [IsName, not_and_or, not_not, not_not]

/-- **A call** keeps the names different, and does to the map what the reference does. -/
lemma setEnvironmentVariable_spec {environ : List (List UInt8)} (h : Distinct environ)
    (name value : List UInt8) :
    Distinct (setEnvironmentVariable environ name value).2 ∧
    getEnvironmentVariables (setEnvironmentVariable environ name value).2
      = reference (getEnvironmentVariables environ) (name, value) ∧
    (setEnvironmentVariable environ name value).1 = decide (IsName name ↔ value ≠ []) := by
  by_cases hname : IsName name
  · have hnot := not_isName_iff.not_right.mp hname
    by_cases hvalue : value = []
    · -- the variable goes away
      have hset : setEnvironmentVariable environ name value
          = (false, drop equals (chars name) environ) := by
        rw [setEnvironmentVariable, if_pos hvalue, unsetenv, if_neg hnot]
      have hdistinct : Distinct (drop equals (chars name) environ) := by
        rw [Distinct, named_drop hname.2, InsertionMap.keys_remove]
        exact h.filter _
      rw [hset]
      refine ⟨hdistinct, ?_, by simp [hname, hvalue]⟩
      rw [reference, if_pos hname, if_pos hvalue]
      refine ext_get (sorted_variables _) (sorted_erase (sorted_variables environ) _) fun k => ?_
      rw [get_variables hdistinct, named_drop hname.2, InsertionMap.find?_remove,
        get_erase (sorted_variables environ), get_variables h]
      by_cases hk : k = chars name
      · rw [if_pos hk, if_pos hk]
      · rw [if_neg hk, if_neg hk]
    · have hset : setEnvironmentVariable environ name value
          = (true, put equals (chars name) (chars value) environ) := by
        rw [setEnvironmentVariable, if_neg hvalue, setenv, if_neg hnot]
      have hdistinct : Distinct (put equals (chars name) (chars value) environ) := by
        rw [Distinct, named_put hname.2]
        exact InsertionMap.nodup_append h _
      rw [hset]
      refine ⟨hdistinct, ?_, by simp [hname, hvalue]⟩
      rw [reference, if_pos hname, if_neg hvalue]
      refine ext_get (sorted_variables _) (sorted_insert (sorted_variables environ) _ _) fun k => ?_
      rw [get_variables hdistinct, named_put hname.2, InsertionMap.find?_append, get_insert,
        get_variables h]
      by_cases hk : k = chars name
      · rw [if_pos hk, if_pos hk]
      · rw [if_neg hk, if_neg hk]
  · -- the C library refuses the name
    have hset : setEnvironmentVariable environ name value = (decide (value = []), environ) := by
      have hrefused := not_isName_iff.mp hname
      rw [setEnvironmentVariable, unsetenv, setenv, if_pos hrefused, if_pos hrefused]
      by_cases hvalue : value = []
      · simp [hvalue]
      · simp [hvalue]
    rw [hset]
    exact ⟨h, (if_neg hname).symm, by simp [hname]⟩

/-- **Environment variables.**  In a process whose variables have different names, after any calls of
    `setEnvironmentVariable`, `getEnvironmentVariables` gives the map in which each call with a usable
    name has written its variable, or removed it if the value is empty, and `getEnvironmentVariable`
    reads that map.  A call returns `true` exactly if it has written something, or was to remove
    something and could not. -/
theorem variables_kept {environ : List (List UInt8)} (h : Distinct environ)
    (cs : List (List UInt8 × List UInt8)) :
    getEnvironmentVariables (calls environ cs).2
      = cs.foldl reference (getEnvironmentVariables environ) ∧
    (∀ name defaultValue, IsName name →
      getEnvironmentVariable (calls environ cs).2 name defaultValue
        = (get (chars name) (cs.foldl reference (getEnvironmentVariables environ))).getD
            defaultValue) ∧
    (calls environ cs).1 = cs.map fun c => decide (IsName c.1 ↔ c.2 ≠ []) := by
  have hcalls : Distinct (calls environ cs).2 ∧
      getEnvironmentVariables (calls environ cs).2
        = cs.foldl reference (getEnvironmentVariables environ) ∧
      (calls environ cs).1 = cs.map fun c => decide (IsName c.1 ↔ c.2 ≠ []) := by
    induction cs generalizing environ with
    | nil => exact ⟨h, rfl, rfl⟩
    | cons c cs ih =>
      obtain ⟨hdistinct, hmap, hresult⟩ := setEnvironmentVariable_spec h c.1 c.2
      obtain ⟨hall, hmaps, hresults⟩ := ih hdistinct
      refine ⟨hall, ?_, ?_⟩
      · rw [List.foldl_cons, ← hmap]
        exact hmaps
      · rw [List.map_cons, ← hresult, ← hresults]
        rfl
  obtain ⟨hdistinct, hmap, hresults⟩ := hcalls
  refine ⟨hmap, fun name defaultValue hname => ?_, hresults⟩
  rw [getEnvironmentVariable, getenv, if_neg hname.1, valueOf_eq hname.2, ← get_variables hdistinct,
    hmap]
  cases get (chars name) (cs.foldl reference (getEnvironmentVariables environ)) with
  | none => rfl
  | some var => rfl

/-- A variable is removed, and the call returns `false`. -/
theorem variables_kept_removed :
    getEnvironmentVariables (calls [bytes "A=1", bytes "B=2"] [(bytes "A", [])]).2
      = [(bytes "B", bytes "2")] ∧
    (calls [bytes "A=1", bytes "B=2"] [(bytes "A", [])]).1 = [false] := by
  have h : Distinct [bytes "A=1", bytes "B=2"] := by decide
  obtain ⟨hmap, -, hresults⟩ := variables_kept h [(bytes "A", [])]
  exact ⟨hmap.trans (by decide), hresults.trans (by decide)⟩

end Nstd.Environment
