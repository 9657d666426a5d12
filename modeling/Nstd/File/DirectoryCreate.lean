import Nstd.File.FileNames

/-!
# `Directory::create`

The parents of a directory are created first, the outermost one before the others.

* `FileSystem` — what a file system answers, and what it promises.
* `directoryExists`, `create` — the code.
* `missing` — the parents that `create` goes back to.
* `create_eq` — `create` asks for each of them, then for the directory, and always succeeds.
* **`create_iff`** — when the result is the truth; `file_in_the_way`.

The code never looks at the answer of `mkdir`.  Its result is right if every directory that it asks for
can be made or is there.
-/

namespace Nstd.Directory

open File

/-! ## File systems -/

/-- **A file system** with states `S`: what `stat` says, and whether `mkdir` succeeds, is its own choice
    in each state. -/
structure FileSystem (S : Type) where
  /-- Whether there is a directory with this path -/
  isDir : S → List UInt8 → Bool
  /-- `stat`: `none` if it fails, else `S_ISDIR` -/
  stat : S → List UInt8 → Option Bool
  /-- `mkdir`: whether it returns 0 -/
  mkdir : S → List UInt8 → Bool × S
  stat_eq : ∀ s p d, stat s p = some d → isDir s p = d
  mkdir_made : ∀ s p, (mkdir s p).1 = true → isDir (mkdir s p).2 p = true
  mkdir_keeps : ∀ s p q, isDir s q = true → isDir (mkdir s p).2 q = true
  mkdir_failed : ∀ s p q, (mkdir s p).1 = false → isDir (mkdir s p).2 q = isDir s q

/-- The files, and what `mkdir` was called for, with what it said -/
structure World (S : Type) where
  files : S
  calls : List (List UInt8 × Bool)

variable {S : Type} (fs : FileSystem S)

/-- A call of `mkdir` -/
def World.mkdir (w : World S) (p : List UInt8) : Bool × World S :=
  let (made, files) := fs.mkdir w.files p
  (made, ⟨files, w.calls ++ [(p, made)]⟩)

/-! ## Functions -/

/-- `Directory::exists` -/
def directoryExists (s : S) (dir : List UInt8) : Bool :=
  match fs.stat s dir with
  | none => false
  | some isDir => isDir

/-- `basename == "." || basename == ".."` -/
def isDots (dir : List UInt8) : Bool := getBaseName dir = bytes "." ∨ getBaseName dir = bytes ".."

/-- What `create` does when there is a parent -/
def createLast (dir : List UInt8) (w : World S) : Bool × World S :=
  match w.mkdir fs dir with
  | (true, w) => (true, w)
  | (false, w) => if isDots dir then (true, w) else (true, w)

/-- A parent is shorter, unless it is the current directory. -/
lemma length_getDirectoryName {dir : List UInt8} (h : getDirectoryName dir ≠ bytes ".") :
    (getDirectoryName dir).length < dir.length := by
  rw [getDirectoryName] at h ⊢
  cases hscan : scanBack isSlash dir dir.length with
  | none => simp [hscan] at h
  | some pos =>
    have hlt := scanBack_lt hscan
    rw [List.length_take]
    exact Nat.lt_of_le_of_lt (Nat.min_le_left _ _) hlt

/-- `create` -/
def create (dir : List UInt8) (w : World S) : Bool × World S :=
  let parent := getDirectoryName dir
  if _h : parent ≠ bytes "." ∧ directoryExists fs w.files parent = false then
    match create parent w with
    | (false, w) => (false, w)
    | (true, w) => createLast fs dir w
  else createLast fs dir w
  termination_by dir.length
  decreasing_by exact length_getDirectoryName _h.1

/-- The parents that do not exist, as far as `create` goes back, the outermost one first -/
def missing (s : S) (dir : List UInt8) : List (List UInt8) :=
  let parent := getDirectoryName dir
  if _h : parent ≠ bytes "." ∧ directoryExists fs s parent = false then missing s parent ++ [parent]
  else []
  termination_by dir.length
  decreasing_by exact length_getDirectoryName _h.1

/-! ## What `create` does -/

/-- Calls of `mkdir`, one after the other -/
def World.mkdirs (w : World S) (paths : List (List UInt8)) : World S :=
  paths.foldl (fun w p => (w.mkdir fs p).2) w

variable {fs}

lemma createLast_eq (dir : List UInt8) (w : World S) :
    createLast fs dir w = (true, (w.mkdir fs dir).2) := by
  rw [createLast]
  rcases w.mkdir fs dir with ⟨made, w⟩
  cases made with
  | true => rfl
  | false => exact ite_self _

/-- **`create`** asks for each missing parent and then for the directory, and always succeeds. -/
theorem create_eq (dir : List UInt8) (w : World S) :
    create fs dir w = (true, w.mkdirs fs (missing fs w.files dir ++ [dir])) := by
  induction hn : dir.length using Nat.strong_induction_on generalizing dir with
  | _ n ih =>
    rw [create, missing]
    split_ifs with h
    · have hparent := ih _ (hn ▸ length_getDirectoryName h.1) (getDirectoryName dir) rfl
      rw [hparent]
      simp only [createLast_eq, World.mkdirs, List.foldl_append, List.foldl_cons, List.foldl_nil]
    · rw [createLast_eq]
      rfl

lemma length_lt_of_mem_missing {s : S} {dir p : List UInt8} (h : p ∈ missing fs s dir) :
    p.length < dir.length := by
  induction hn : dir.length using Nat.strong_induction_on generalizing dir with
  | _ n ih =>
    rw [missing] at h
    split_ifs at h with hparent
    · have hlt := length_getDirectoryName hparent.1
      rcases List.mem_append.mp h with hmem | hmem
      · exact Nat.lt_trans (ih _ (hn ▸ hlt) hmem rfl) (hn ▸ hlt)
      · obtain rfl := List.mem_singleton.mp hmem
        exact hn ▸ hlt
    · exact nomatch h

/-! ## The truth -/

variable (fs)

/-- What the result is to say: the directory is there, and no parent could not be created. -/
def Reports (s : S) (dir : List UInt8) : Prop :=
  ((create fs dir ⟨s, []⟩).1 = true → fs.isDir (create fs dir ⟨s, []⟩).2.files dir = true) ∧
    ∀ parent, (parent, false) ∈ (create fs dir ⟨s, []⟩).2.calls → parent ≠ dir →
      isDots parent = false → (create fs dir ⟨s, []⟩).1 = false

/-- `mkdir` succeeds for the parents, from the outermost one on, unless their names are `.` or `..`, and
    then for the directory, unless it is there already. -/
def Permitted (dir : List UInt8) : S → List (List UInt8) → Prop
  | s, [] => (fs.mkdir s dir).1 = true ∨ fs.isDir s dir = true
  | s, p :: parents =>
    ((fs.mkdir s p).1 = true ∨ isDots p = true) ∧ Permitted dir (fs.mkdir s p).2 parents

variable {fs}

lemma isDir_mkdir_iff (s : S) (p : List UInt8) :
    fs.isDir (fs.mkdir s p).2 p = true ↔ (fs.mkdir s p).1 = true ∨ fs.isDir s p = true := by
  constructor
  · intro hdir
    refine or_iff_not_imp_left.mpr fun hmade => ?_
    rwa [fs.mkdir_failed s p p (by simpa using hmade)] at hdir
  · rintro (hmade | hdir)
    · exact fs.mkdir_made s p hmade
    · exact fs.mkdir_keeps s p p hdir

@[simp] lemma files_mkdir (w : World S) (p : List UInt8) :
    (w.mkdir fs p).2.files = (fs.mkdir w.files p).2 := rfl

/-- Calls stay on record. -/
lemma calls_subset_mkdirs (paths : List (List UInt8)) (w : World S) :
    w.calls ⊆ (w.mkdirs fs paths).calls := by
  induction paths generalizing w with
  | nil => exact List.Subset.refl _
  | cons p paths ih =>
    intro call hcall
    exact ih _ (by simp [World.mkdir, hcall])

/-- What is on record of the parents in the end, and what has become of the directory -/
lemma permitted_iff {dir : List UInt8} {parents : List (List UInt8)} (hne : ∀ p ∈ parents, p ≠ dir)
    (w : World S) (hw : ∀ p, (p, false) ∈ w.calls → isDots p = true) :
    (fs.isDir (w.mkdirs fs (parents ++ [dir])).files dir = true ∧
      ∀ p, (p, false) ∈ (w.mkdirs fs (parents ++ [dir])).calls → p ≠ dir → isDots p = true) ↔
    Permitted fs dir w.files parents := by
  induction parents generalizing w with
  | nil =>
    have hrecord : ∀ p, (p, false) ∈ (w.mkdir fs dir).2.calls → p ≠ dir → isDots p = true := by
      intro p hp hpdir
      simp only [World.mkdir, List.mem_append, List.mem_singleton, Prod.mk.injEq] at hp
      rcases hp with hp | ⟨rfl, -⟩
      · exact hw p hp
      · exact absurd rfl hpdir
    have hmkdir : w.mkdirs fs ([] ++ [dir]) = (w.mkdir fs dir).2 := rfl
    rw [hmkdir, files_mkdir, isDir_mkdir_iff, Permitted]
    exact and_iff_left hrecord
  | cons p parents ih =>
    have hp := hne p List.mem_cons_self
    have hstep : w.mkdirs fs (p :: parents ++ [dir])
        = (w.mkdir fs p).2.mkdirs fs (parents ++ [dir]) := rfl
    rw [hstep, Permitted]
    by_cases hok : (fs.mkdir w.files p).1 = true ∨ isDots p = true
    · have hrecord : ∀ q, (q, false) ∈ (w.mkdir fs p).2.calls → isDots q = true := by
        intro q hq
        simp only [World.mkdir, List.mem_append, List.mem_singleton, Prod.mk.injEq] at hq
        rcases hq with hq | ⟨rfl, hfailed⟩
        · exact hw q hq
        · exact hok.resolve_left (by simp [← hfailed])
      rw [and_iff_right hok]
      exact ih (fun q hq => hne q (List.mem_cons_of_mem p hq)) (w.mkdir fs p).2 hrecord
    · refine iff_of_false (fun h => ?_) fun h => hok h.1
      rw [not_or, Bool.not_eq_true, Bool.not_eq_true] at hok
      have hcall : (p, false) ∈ (w.mkdir fs p).2.calls := by simp [World.mkdir, hok.1]
      have hdots := h.2 p (calls_subset_mkdirs _ _ hcall) hp
      simp [hok.2] at hdots

/-- **`create` reports the truth** exactly if `mkdir` succeeds wherever it has to. -/
theorem create_iff (fs : FileSystem S) (s : S) (path : CString) :
    Reports fs s path.bytes ↔ Permitted fs path.bytes s (missing fs s path.bytes) := by
  have hne : ∀ p ∈ missing fs s path.bytes, p ≠ path.bytes := by
    rintro p hp rfl
    exact Nat.lt_irrefl _ (length_lt_of_mem_missing hp)
  rw [← permitted_iff hne ⟨s, []⟩ (by simp), Reports, create_eq]
  simp

/-- A file, and nothing else -/
def oneFile : FileSystem Unit where
  isDir _ _ := false
  stat _ p := if p = bytes "file" then some false else none
  mkdir _ _ := (false, ())
  stat_eq := by
    intro s p d h
    split_ifs at h
    exact Option.some.inj h
  mkdir_made := by simp
  mkdir_keeps := by simp
  mkdir_failed := by simp

/-- The path of the file -/
def pathOfFile : CString := ⟨bytes "file", by decide⟩

/-- In place of a file no directory can be created, but `create` says that there is one. -/
theorem file_in_the_way : ¬ ∀ (S : Type) (fs : FileSystem S) (s : S) (path : CString),
    Reports fs s path.bytes := by
  intro h
  have hdir := (h Unit oneFile () pathOfFile).1
  rw [create_eq] at hdir
  exact absurd (hdir rfl) Bool.false_ne_true

end Nstd.Directory
