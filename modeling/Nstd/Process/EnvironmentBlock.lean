import Nstd.Process.Environment

/-!
# The environment of a process on Windows

An environment is a block of memory there: strings that end with a zero, and one more zero behind them.

* `prepareEnvironment` — the block that a child is started with, written into memory that was reserved
  before; `readStrings`, `getEnvironmentVariables` — a block is read.
* `prepareEnvironment_eq` — what is written fills what was reserved.
* `readStrings_block` — which entries are read from a block, and that nothing is read behind it.
* **`block_read_back`** — all entries with a name and a value are read back exactly if no such name has
  an equals sign.

The room is computed by the same walk over the map as the entries are written, so both end at the same
place.
-/

namespace Nstd.EnvironmentBlock

open NamedTexts SortedAssoc Environment

/-- Bytes in their order -/
local instance order : LinearOrder UInt8 := Environment.byteOrder

/-! ## Functions -/

/-- `key.isEmpty() || val.isEmpty()` -/
def Skipped (e : List UInt8 × List UInt8) : Prop := e.1 = [] ∨ e.2 = []

instance (e : List UInt8 × List UInt8) : Decidable (Skipped e) := inferInstanceAs (Decidable (_ ∨ _))

/-- `bufferSize` -/
def bufferSize (environment : List (List UInt8 × List UInt8)) : ℕ :=
  environment.foldl
    (fun size e => if Skipped e then size else size + (e.1.length + e.2.length + 2)) 1

/-- Bytes are written at `lptEnv`, behind what is there, into memory of some size. -/
def append (size : ℕ) (written bytes : List UInt8) : Option (List UInt8) :=
  if written.length + bytes.length ≤ size then some (written ++ bytes) else none

/-- One entry is written. -/
def writeEntry (size : ℕ) (written : List UInt8) (e : List UInt8 × List UInt8) : Option (List UInt8) :=
  if Skipped e then some written
  else do
    let written ← append size written e.1
    let written ← append size written [equals]
    let written ← append size written e.2
    append size written [0]

/-- `prepareEnvironment`: no block where there are no entries -/
def prepareEnvironment (environment : List (List UInt8 × List UInt8)) : Option (Option (List UInt8)) :=
  if environment = [] then some none
  else do
    let written ← environment.foldlM (writeEntry (bufferSize environment)) []
    let block ← append (bufferSize environment) written [0]
    some (some block)

/-- The block that a child gets, which is that of its parent where none is given -/
def childBlock (parent : List UInt8) (environment : List (List UInt8 × List UInt8)) :
    Option (List UInt8) := do
  let block ← prepareEnvironment environment
  some (block.getD parent)

/-- The loop of `getEnvironmentVariables` over the strings of a block, up to a zero in place of one.  A
    byte behind the block is not there to be read. -/
def readStrings : ℕ → List UInt8 → Option (List (List UInt8 × List UInt8))
  | 0, _ => none
  | _ + 1, [] => none
  | fuel + 1, c :: l =>
    if c = 0 then some []
    else do
      -- also a zero is taken for a character of the key
      let (key, l) ← read equals (c :: l)
      let (value, l) ← read 0 l
      let entries ← readStrings fuel l
      some ((key, value) :: entries)

/-- `Process::getEnvironmentVariables`, with `environmentStrings` -/
def getEnvironmentVariables (environmentStrings : List UInt8) :
    Option (List (List UInt8 × List UInt8)) := do
  let entries ← readStrings (environmentStrings.length + 1) environmentStrings
  some (insertAll [] (entries.filter fun e => e.1 ≠ []))

/-! ## What is written -/

/-- The entries that are not skipped -/
def kept (environment : List (List UInt8 × List UInt8)) : List (List UInt8 × List UInt8) :=
  environment.filter fun e => ¬ Skipped e

/-- The strings of entries, and a zero behind them -/
def block (entries : List (List UInt8 × List UInt8)) : List UInt8 :=
  entries.flatMap (fun e => write equals e.1 e.2 ++ [0]) ++ [0]

lemma kept_cons (e : List UInt8 × List UInt8) (environment : List (List UInt8 × List UInt8)) :
    kept (e :: environment) = if Skipped e then kept environment else e :: kept environment := by
  by_cases h : Skipped e
  · rw [if_pos h, kept, List.filter_cons_of_neg (by simp [h]), kept]
  · rw [if_neg h, kept, List.filter_cons_of_pos (by simp [h]), kept]

lemma bufferSize_eq (environment : List (List UInt8 × List UInt8)) :
    bufferSize environment = (block (kept environment)).length := by
  have hfold : ∀ size, environment.foldl
      (fun size e => if Skipped e then size else size + (e.1.length + e.2.length + 2)) size + 1
      = size + (block (kept environment)).length := by
    induction environment with
    | nil => exact fun size => rfl
    | cons e environment ih =>
      intro size
      rw [List.foldl_cons, ih, kept_cons]
      split_ifs
      · rfl
      · simp [block, write]
        omega
  have h := hfold 1
  rw [bufferSize]
  omega

lemma append_of_le {size : ℕ} {written bytes : List UInt8}
    (h : (written ++ bytes).length ≤ size) : append size written bytes = some (written ++ bytes) := by
  rw [List.length_append] at h
  exact if_pos h

/-- **What is written** is the block of the entries that are kept, and fills what was reserved. -/
theorem prepareEnvironment_eq {environment : List (List UInt8 × List UInt8)} (h : environment ≠ []) :
    prepareEnvironment environment = some (some (block (kept environment))) := by
  have hloop : ∀ size entries written,
      (written ++ (kept entries).flatMap fun e => write equals e.1 e.2 ++ [0]).length ≤ size →
      entries.foldlM (writeEntry size) written
        = some (written ++ (kept entries).flatMap fun e => write equals e.1 e.2 ++ [0]) := by
    intro size entries
    induction entries with
    | nil => exact fun written _ => congrArg some (List.append_nil written).symm
    | cons e entries ih =>
      intro written hle
      rw [List.foldlM_cons]
      rw [kept_cons] at hle ⊢
      by_cases hskipped : Skipped e
      · rw [if_pos hskipped] at hle ⊢
        rw [writeEntry, if_pos hskipped]
        exact ih written hle
      · rw [if_neg hskipped] at hle ⊢
        have hwrite : writeEntry size written e = some (written ++ (write equals e.1 e.2 ++ [0])) := by
          simp only [List.flatMap_cons, write, List.length_append, List.length_cons,
            List.length_nil] at hle
          have hkey : append size written e.1 = some (written ++ e.1) :=
            append_of_le (by simp; omega)
          have hsign : append size (written ++ e.1) [equals] = some (written ++ e.1 ++ [equals]) :=
            append_of_le (by simp; omega)
          have hval : append size (written ++ e.1 ++ [equals]) e.2
              = some (written ++ e.1 ++ [equals] ++ e.2) := append_of_le (by simp; omega)
          have hzero : append size (written ++ e.1 ++ [equals] ++ e.2) [0]
              = some (written ++ e.1 ++ [equals] ++ e.2 ++ [0]) := append_of_le (by simp; omega)
          simp only [writeEntry, if_neg hskipped, hkey, hsign, hval, hzero, Option.bind_eq_bind,
            Option.bind_some]
          simp [write]
        rw [hwrite, Option.bind_eq_bind, Option.bind_some, ih _ (by simpa using hle)]
        simp
  have hsize := bufferSize_eq environment
  rw [block, List.length_append, List.length_singleton] at hsize
  have hwritten := hloop (bufferSize environment) environment [] (by simp [hsize])
  rw [List.nil_append] at hwritten
  rw [prepareEnvironment, if_neg h, hwritten, Option.bind_eq_bind, Option.bind_some,
    append_of_le (by rw [hsize]; simp)]
  rfl

/-! ## What is read -/

/-- What is read of an entry, and not left out -/
def readEntry (e : List UInt8 × List UInt8) : Option (List UInt8 × List UInt8) :=
  (read equals (write equals e.1 e.2)).filter fun e => e.1 ≠ []

/-- **The strings of a block** are read one by one, and nothing behind the block. -/
lemma readStrings_block {entries : List (List UInt8 × List UInt8)}
    (hzero : ∀ e ∈ entries, 0 ∉ e.1 ∧ 0 ∉ e.2) (hname : ∀ e ∈ entries, e.1 ≠ []) {fuel : ℕ}
    (hfuel : entries.length < fuel) : readStrings fuel (block entries)
      = some (entries.filterMap fun e => read equals (write equals e.1 e.2)) := by
  induction entries generalizing fuel with
  | nil =>
    obtain ⟨fuel, rfl⟩ := Nat.exists_eq_succ_of_ne_zero (by omega : fuel ≠ 0)
    exact if_pos rfl
  | cons e entries ih =>
    obtain ⟨fuel, rfl⟩ := Nat.exists_eq_succ_of_ne_zero (by omega : fuel ≠ 0)
    obtain ⟨hkey, hvalue⟩ := hzero e List.mem_cons_self
    obtain ⟨c, k, hck⟩ := List.exists_cons_of_ne_nil (hname e List.mem_cons_self)
    obtain ⟨name, value, hread⟩ := @exists_read _ _ equals e.1 e.2
    obtain ⟨hmark, hwrite⟩ := read_eq_some_iff.mp hread
    have hc : c ≠ 0 := fun h => hkey (by simp [hck, h])
    have hblock : block (e :: entries) = write equals name (write 0 value (block entries)) := by
      calc block (e :: entries)
          = write equals e.1 e.2 ++ 0 :: block entries := by simp [block]
        _ = write equals name (write 0 value (block entries)) := by rw [hwrite]; simp [write]
    have hcons : block (e :: entries) = c :: (k ++ equals :: (e.2 ++ 0 :: block entries)) := by
      simp [block, write, hck]
    have hvalue' : 0 ∉ value := by
      have hnot : 0 ∉ write equals e.1 e.2 := by simp [write, hkey, hvalue, equals]
      rw [hwrite] at hnot
      exact fun h => hnot (by simp [write, h])
    have hrest := ih (fun e he => hzero e (List.mem_cons_of_mem _ he))
      (fun e he => hname e (List.mem_cons_of_mem _ he)) (Nat.lt_of_succ_lt_succ hfuel)
    rw [hcons, readStrings, if_neg hc, ← hcons, hblock, read_write hmark]
    simp only [Option.bind_eq_bind, Option.bind_some]
    rw [read_write hvalue']
    simp only [Option.bind_some, hrest]
    rw [List.filterMap_cons, hread]

lemma length_le_block (entries : List (List UInt8 × List UInt8)) :
    entries.length < (block entries).length := by
  induction entries with
  | nil => exact Nat.one_pos
  | cons e entries ih =>
    simp only [block, List.flatMap_cons, List.append_assoc, List.length_append, List.length_cons,
      List.length_nil] at ih ⊢
    omega

lemma getEnvironmentVariables_block {entries : List (List UInt8 × List UInt8)}
    (hzero : ∀ e ∈ entries, 0 ∉ e.1 ∧ 0 ∉ e.2) (hname : ∀ e ∈ entries, e.1 ≠ []) :
    getEnvironmentVariables (block entries)
      = some (insertAll [] (entries.filterMap readEntry)) := by
  rw [getEnvironmentVariables, readStrings_block hzero hname
    (Nat.lt_succ_of_lt (length_le_block entries)), Option.bind_eq_bind,
    Option.bind_some, List.filter_filterMap]
  rfl

/-- **A block is read back.**  A block is written into just the memory that was reserved for it.  For
    names and values without zeros, the child reads nothing behind its block, and it reads all entries
    that have a name and a value exactly if no such name has an equals sign. -/
theorem block_read_back {environment : List (List UInt8 × List UInt8)} (hne : environment ≠ [])
    (parent : List UInt8) :
    ∃ block, childBlock parent environment = some block ∧ block.length = bufferSize environment ∧
      (Sorted environment → (∀ e ∈ environment, 0 ∉ e.1 ∧ 0 ∉ e.2) →
        ∃ m, getEnvironmentVariables block = some m ∧
          (m = environment.filter (fun e => ¬ Skipped e) ↔
            ∀ e ∈ environment, ¬ Skipped e → equals ∉ e.1)) := by
  refine ⟨block (kept environment), ?_, (bufferSize_eq environment).symm, fun hsorted hzero => ?_⟩
  · rw [childBlock, prepareEnvironment_eq hne]
    rfl
  · have hmem : ∀ e ∈ kept environment, e ∈ environment ∧ ¬ Skipped e := fun e he => by
      simpa [kept] using he
    have hread := getEnvironmentVariables_block
      (fun e he => hzero e (hmem e he).1) (fun e he => fun h => (hmem e he).2 (Or.inl h))
    have hkept : Sorted (kept environment) := hsorted.sublist (List.filter_sublist.map _)
    refine ⟨_, hread, ⟨fun h e he hskipped => ?_, fun h => ?_⟩⟩
    · have hin : e ∈ kept environment := List.mem_filter.mpr ⟨he, by simp [hskipped]⟩
      obtain ⟨e', he', hmeasure⟩ := kept_of_read_back hkept h e hin
      have hle : ∀ e e', readEntry e = some e' → read equals (write equals e.1 e.2) = some e' :=
        fun e e' h => (Option.filter_eq_some_iff.mp h).1
      refine (length_name_le List.prefix_rfl (hle e e' he')).2 ?_
      exact hmeasure (fun e => e.1.length) fun e e' h => (length_name_le List.prefix_rfl (hle e e' h)).1
    · have hentries : (kept environment).filterMap readEntry = kept environment := by
        calc (kept environment).filterMap readEntry
            = (kept environment).filterMap some := List.filterMap_congr fun e he => by
              obtain ⟨hin, hskipped⟩ := hmem e he
              have hname : e.1 ≠ [] := fun h => hskipped (Or.inl h)
              rw [readEntry, read_write (h e hin hskipped)]
              simp [hname]
          _ = kept environment := List.filterMap_some
      rw [hentries]
      exact insertAll_behind hkept

/-- A block of five bytes, with a variable that is left out -/
theorem block_read_back_five : ∃ block,
    childBlock [] [(bytes "A", bytes "1"), (bytes "B", [])] = some block ∧ block.length = 5 ∧
      getEnvironmentVariables block = some [(bytes "A", bytes "1")] := by
  have hne : [(bytes "A", bytes "1"), (bytes "B", [])] ≠ [] := by decide
  have hsorted : Sorted [(bytes "A", bytes "1"), (bytes "B", [])] :=
    sorted_cons.mpr ⟨by decide, sorted_cons.mpr ⟨by decide, sorted_nil⟩⟩
  obtain ⟨block, hchild, hlength, hread⟩ := block_read_back hne []
  obtain ⟨m, hm, hiff⟩ := hread hsorted (by decide)
  have heq := hiff.mpr (by decide)
  exact ⟨block, hchild, hlength.trans (by decide), hm.trans (congrArg some (heq.trans (by decide)))⟩

end Nstd.EnvironmentBlock
