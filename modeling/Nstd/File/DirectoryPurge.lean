import Nstd.File.DirectoryCreate
import Nstd.File.DirectoryUnlink

/-!
# `Directory::purge`

Behind a directory that was removed, its parents are removed as long as they are empty.

* `purge`, `purgeParents` — the code; `parents` — the paths that the loop comes to.
* `Climbed`, `purgeParents_spec` — what the loop may leave.
* **`purge_correct`** — what is gone is the directory, what was below it, and parents that a path of the
  loop leads to, up to the first one that could not be removed.

A round of the loop removes one more parent, which was empty, or it is the last one.
-/

namespace Nstd.Directory

open File (getDirectoryName)

/-! ## The code -/

variable {S : Type} (K : Kernel S)

/-- A path that is not the current directory is longer than its parent. -/
def climb (path : List UInt8) : ℕ := if path = bytes "." then 0 else path.length + 1

lemma climb_lt {path : List UInt8} (h : path ≠ bytes ".") : climb (getDirectoryName path) < climb path := by
  rw [climb, climb, if_neg h]
  split_ifs with hparent
  · exact Nat.succ_pos _
  · exact Nat.succ_lt_succ (length_getDirectoryName hparent)

/-- The loop of `purge` -/
def purgeParents (i : List UInt8) (w : Process S) : Process S :=
  if _h : i = bytes "." then w
  else
    match w.rmdir K i with
    | (false, w) => w
    | (true, w) => purgeParents (getDirectoryName i) w
  termination_by climb i
  decreasing_by exact climb_lt _h

/-- `purge`, for as many calls of `unlink` inside each other as there is `fuel` -/
def purge (fuel : ℕ) (path : List UInt8) (recursive : Bool) (w : Process S) :
    Option (Bool × Process S) := do
  let (removed, w) ← unlink K fuel path recursive w
  if removed then some (true, purgeParents K (getDirectoryName path) w) else some (false, w)

/-- The paths that the loop comes to, if it does not end before -/
def parents (i : List UInt8) : List (List UInt8) :=
  if _h : i = bytes "." then [] else i :: parents (getDirectoryName i)
  termination_by climb i
  decreasing_by exact climb_lt _h

/-! ## The loop -/

variable {K} {w w' : Process S} {i : List UInt8}

/-- Where files are missing, paths lead to no other place. -/
lemma entry_within {t t' : FileTree} {limit : ℕ} {cwd place : FilePlace} {path : List UInt8}
    (hwithin : t'.Within t) (h : t'.entry limit cwd path = some place) :
    t.entry limit cwd path = some place := by
  rw [FileTree.entry] at h ⊢
  split_ifs at h ⊢
  cases hlast : (FileTree.components path).getLast? with
  | none =>
    rw [hlast] at h
    exact h
  | some n =>
    rw [hlast] at h
    dsimp only at h ⊢
    split_ifs at h ⊢
    · exact hwithin.walk h
    · obtain ⟨between, hwalk, rfl⟩ := Option.map_eq_some_iff.mp h
      rw [hwithin.walk hwalk]
      rfl

/-- **What the loop may leave**: `done` are the parents that are removed, `rest` begins with one that
    could not be. -/
structure Climbed (K : Kernel S) (i : List UInt8) (w : Process S) (done rest : List (List UInt8))
    (w' : Process S) : Prop where
  within : (K.tree w'.sys).Within (K.tree w.sys)
  parents : parents i = done ++ rest
  removed : ∀ q, (K.tree w'.sys).kind q ≠ (K.tree w.sys).kind q →
    ∃ p ∈ done, (K.tree w.sys).entry K.limit K.cwd p = some q
  gone : ∀ p ∈ done, ∃ q, (K.tree w.sys).entry K.limit K.cwd p = some q ∧
    (K.tree w.sys).kind q = some .directory ∧ (K.tree w'.sys).kind q = none
  calls : ∃ failed : List (SystemCall × Option ℕ), w'.calls
      = w.calls ++ done.map (fun p => (.rmdir p, none)) ++ failed ∧
    failed.map Prod.fst = (rest.head?.map SystemCall.rmdir).toList ∧ ∀ c ∈ failed, c.2 ≠ none

/-- The loop ends before it has removed anything. -/
lemma Climbed.stop {rest : List (List UInt8)} (hparents : Directory.parents i = rest)
    (htree : K.tree w'.sys = K.tree w.sys) {failed : List (SystemCall × Option ℕ)}
    (hcalls : w'.calls = w.calls ++ failed)
    (hfailed : failed.map Prod.fst = (rest.head?.map SystemCall.rmdir).toList)
    (hne : ∀ c ∈ failed, c.2 ≠ none) : Climbed K i w [] rest w' where
  within := htree ▸ FileTree.Within.refl _
  parents := hparents
  removed q hq := absurd (congrArg (fun t => t.kind q) htree) hq
  gone p hp := absurd hp List.not_mem_nil
  calls := ⟨failed, by rw [List.map_nil, List.append_nil, hcalls], hfailed, hne⟩

/-- A parent is removed, and the loop goes on. -/
lemma Climbed.step {w₁ : Process S} {done rest : List (List UInt8)} (hi : i ≠ bytes ".")
    (hrmdir : w.rmdir K i = (true, w₁)) (h : Climbed K (getDirectoryName i) w₁ done rest w') :
    Climbed K i w (i :: done) rest w' := by
  rw [Process.rmdir] at hrmdir
  rcases hcall : K.rmdir w.sys i with ⟨error, sys⟩
  rw [hcall] at hrmdir
  cases error with
  | some error => cases (Prod.mk.inj hrmdir).1
  | none =>
    obtain ⟨-, rfl⟩ := Prod.mk.inj hrmdir
    obtain ⟨place, hentry, hkind, -, htree⟩ := K.rmdir_done w.sys i (by rw [hcall])
    rw [hcall] at htree
    have hwithin : (K.tree sys).Within (K.tree w.sys) := by
      intro q k hk
      rw [htree, Function.update_apply] at hk
      split_ifs at hk
      exact hk
    refine ⟨h.within.trans hwithin, ?_, fun q hq => ?_, fun p hp => ?_, ?_⟩
    · rw [Directory.parents, dif_neg hi, h.parents, List.cons_append]
    · by_cases hplace : q = place
      · exact ⟨i, List.mem_cons_self, hplace ▸ hentry⟩
      · have hkept : (K.tree sys).kind q = (K.tree w.sys).kind q := by
          rw [htree, Function.update_of_ne hplace]
        obtain ⟨p, hp, hfound⟩ := h.removed q fun heq => hq (heq.trans hkept)
        exact ⟨p, List.mem_cons_of_mem _ hp, entry_within hwithin hfound⟩
    · rcases List.mem_cons.mp hp with rfl | hp
      · refine ⟨place, hentry, hkind, ?_⟩
        have hnone : (K.tree sys).kind place = none := by rw [htree, Function.update_self]
        by_contra hleft
        obtain ⟨k, hk⟩ := Option.ne_none_iff_exists'.mp hleft
        cases hnone.symm.trans (h.within place k hk)
      · obtain ⟨q, hfound, hdirectory, hnone⟩ := h.gone p hp
        exact ⟨q, entry_within hwithin hfound, hwithin q _ hdirectory, hnone⟩
    · obtain ⟨failed, hcalls, hfailed⟩ := h.calls
      refine ⟨failed, ?_, hfailed⟩
      rw [hcalls, Process.returned, List.map_cons, List.append_assoc w.calls]
      rfl

/-- **The loop** removes parents up to the first one that cannot be removed. -/
lemma purgeParents_spec (i : List UInt8) (w : Process S) :
    ∃ done rest, Climbed K i w done rest (purgeParents K i w) := by
  induction hm : climb i using Nat.strongRecOn generalizing i w with
  | _ m ih =>
    by_cases hi : i = bytes "."
    · rw [purgeParents, dif_pos hi]
      have hparents : parents i = [] := by rw [parents, dif_pos hi]
      exact ⟨[], [], .stop hparents rfl (List.append_nil _).symm rfl (fun _ hc =>
        absurd hc List.not_mem_nil)⟩
    · have hparents : parents i = i :: parents (getDirectoryName i) := by rw [parents, dif_neg hi]
      rw [purgeParents, dif_neg hi]
      rcases hrmdir : w.rmdir K i with ⟨removed, w₁⟩
      cases removed with
      | false =>
        have htree := tree_of_rmdir hrmdir
        rw [Process.rmdir] at hrmdir
        have hcalls : w₁.calls = w.calls ++ [(.rmdir i, (K.rmdir w.sys i).1)] :=
          congrArg Process.calls (Prod.mk.inj hrmdir).2.symm
        refine ⟨[], _, .stop hparents htree hcalls rfl fun c hc hnone => ?_⟩
        have hfalse : (K.rmdir w.sys i).1.isNone = false := (Prod.mk.inj hrmdir).1
        rw [List.mem_singleton.mp hc] at hnone
        cases (Option.isNone_iff_eq_none.mpr hnone).symm.trans hfalse
      | true =>
        obtain ⟨done, rest, hrest⟩ := ih (climb (getDirectoryName i)) (hm ▸ climb_lt hi)
          (getDirectoryName i) w₁ rfl
        exact ⟨i :: done, rest, hrest.step hi hrmdir⟩

/-! ## `purge` -/

/-- **What `purge` is to do** about the directory at a place, which `path` leads to -/
structure Purged (K : Kernel S) (t : FileTree) (path : List UInt8) (place : FilePlace) (result : Bool)
    (w' : Process S) : Prop where
  removed : ∀ q, (K.tree w'.sys).kind q ≠ t.kind q → (K.tree w'.sys).kind q = none ∧
    (place <+: q ∨ result = true ∧ ∃ p ∈ parents (getDirectoryName path),
      t.entry K.limit K.cwd p = some q)
  result_iff : result = true ↔ ∀ q, place <+: q → (K.tree w'.sys).kind q = none
  climbs : result = true → ∃ w₁ done rest, parents (getDirectoryName path) = done ++ rest ∧
    Correct K t place true w₁ ∧
    (∀ p ∈ done, ∃ q, t.entry K.limit K.cwd p = some q ∧ (K.tree w'.sys).kind q = none) ∧
    ∃ failed : List (SystemCall × Option ℕ),
      w'.calls = w₁.calls ++ done.map (fun p => (.rmdir p, none)) ++ failed ∧
      failed.map Prod.fst = (rest.head?.map SystemCall.rmdir).toList ∧ ∀ c ∈ failed, c.2 ≠ none

/-- `unlink` of a directory returns, with `recursive` and without. -/
lemma exists_unlinked {path : List UInt8} {place : FilePlace} (hpath : path ≠ [])
    (hnames : (K.tree w.sys).Names K.cwd path place) (recursive : Bool) :
    ∃ fuel result w₁, unlink K fuel path recursive w = some (result, w₁) ∧
      Unlinked K place w result w₁ := by
  cases recursive with
  | true =>
    obtain ⟨depth, hdepth⟩ := (K.tree w.sys).exists_depth
    have hall : ∀ q, (K.tree w.sys).kind q ≠ none → q.length < place.length + (depth + 1) := by
      intro q hq
      have hle := hdepth q hq
      omega
    obtain ⟨result, w₁, hrun, hunlinked⟩ := unlink_spec (Nat.succ_pos depth) hpath hnames hall
    exact ⟨depth + 1, result, w₁, hrun, hunlinked⟩
  | false =>
    have hone := rmdir_unlinked hnames
    rcases hcall : w.rmdir K path with ⟨removed, w₁⟩
    rw [hcall] at hone
    refine ⟨1, removed, w₁, ?_, hone⟩
    rw [unlink, hcall]
    cases removed with
    | true => rfl
    | false => rfl

/-- The loop behind `unlink` -/
lemma Unlinked.purged {path : List UInt8} {place : FilePlace} {w₁ : Process S}
    (h : Unlinked K place w true w₁) (hkind : (K.tree w.sys).kind place = some .directory) :
    Purged K (K.tree w.sys) path place true (purgeParents K (getDirectoryName path) w₁) := by
  obtain ⟨done, rest, hclimbed⟩ := purgeParents_spec (K := K) (getDirectoryName path) w₁
  have hwithin := hclimbed.within.trans h.within
  have hcorrect := h.correct hkind
  refine ⟨fun q hq => ⟨?_, ?_⟩, ?_, fun _ => ?_⟩
  · by_contra hleft
    obtain ⟨k, hk⟩ := Option.ne_none_iff_exists'.mp hleft
    exact hq (hk.trans (hwithin q k hk).symm)
  · by_cases hloop : (K.tree (purgeParents K (getDirectoryName path) w₁).sys).kind q
        = (K.tree w₁.sys).kind q
    · exact Or.inl (hcorrect.removed q fun heq => hq (hloop.trans heq)).1
    · obtain ⟨p, hp, hentry⟩ := hclimbed.removed q hloop
      refine Or.inr ⟨rfl, p, ?_, entry_within h.within hentry⟩
      rw [hclimbed.parents]
      exact List.mem_append_left _ hp
  · refine iff_of_true rfl fun q hq => ?_
    by_contra hleft
    obtain ⟨k, hk⟩ := Option.ne_none_iff_exists'.mp hleft
    cases (h.gone rfl q hq).symm.trans (hclimbed.within q k hk)
  · refine ⟨w₁, done, rest, hclimbed.parents, hcorrect, fun p hp => ?_, hclimbed.calls⟩
    obtain ⟨q, hentry, -, hnone⟩ := hclimbed.gone p hp
    exact ⟨q, entry_within h.within hentry, hnone⟩

/-- **`purge`** of a directory, with `recursive` and without: it returns; what is gone then is the
    directory and what was below it, and directories that the parents in its path lead to.  Its result is
    whether the directory is gone, and then each parent in the path is removed up to the first one for
    which `rmdir` fails. -/
theorem purge_correct (K : Kernel S) (path : CString) (s : S) (errno : ℕ) (place : FilePlace)
    (hdir : (K.tree s).follow K.limit K.cwd path.bytes = some place)
    (hkind : (K.tree s).kind place = some .directory) (recursive : Bool) :
    ∃ fuel result w', purge K fuel path.bytes recursive ⟨s, errno, []⟩ = some (result, w') ∧
      Purged K (K.tree s) path.bytes place result w' := by
  have hpath : path.bytes ≠ [] := by
    rintro hnil
    simp [FileTree.follow, hnil] at hdir
  obtain ⟨fuel, result, w₁, hrun, hunlinked⟩ := exists_unlinked (K := K) (w := ⟨s, errno, []⟩) hpath
    (FileTree.names_of_follow hdir) recursive
  refine ⟨fuel, result, if result then purgeParents K (getDirectoryName path.bytes) w₁ else w₁, ?_, ?_⟩
  · rw [purge, hrun]
    cases result with
    | true => rfl
    | false => rfl
  · cases result with
    | true => exact hunlinked.purged hkind
    | false =>
      have hcorrect := hunlinked.correct hkind
      exact ⟨fun q hq => ⟨(hcorrect.removed q hq).2, Or.inl (hcorrect.removed q hq).1⟩,
        hcorrect.result_iff, by simp⟩

/-! ## Directories inside each other -/

/-- How many of the directories `a`, `a/b` and `a/b/d` are left -/
inductive Nest
  | three
  | two
  | one

/-- The places of the directories -/
def nested : List FilePlace := [[bytes "a"], [bytes "a", bytes "b"], [bytes "a", bytes "b", bytes "d"]]

def Nest.files (s : Nest) : List (FilePlace × FileKind) :=
  ([] :: nested.take (match s with | three => 3 | two => 2 | one => 1)).map fun p => (p, .directory)

def Nest.tree (s : Nest) : FileTree :=
  FileTree.ofList s.files (by cases s <;> decide) (by cases s <;> decide)

/-- `rmdir`, which has no permission to remove `a` -/
def Nest.rmdir : Nest → List UInt8 → Option ℕ × Nest
  | three, p => if p = bytes "a/b/d" then (none, two) else (some 13, three)
  | two, p => if p = bytes "a/b" then (none, one) else (some 13, two)
  | one, _ => (some 13, one)

/-- The last one of the directories is removed. -/
lemma Nest.kind_remove {s s' : Nest} {place : FilePlace}
    (hfiles : s.files = s'.files ++ [(place, .directory)]) (hlast : s'.files.lookup place = none) :
    s'.tree.kind = Function.update s.tree.kind place none := by
  funext q
  show s'.files.lookup q = Function.update (fun q => s.files.lookup q) place none q
  rw [Function.update_apply, hfiles, List.lookup_append]
  split_ifs with hq
  · rw [hq, hlast]
  · have hbeq : (q == place) = false := beq_false_of_ne hq
    simp [List.lookup_cons, hbeq]

/-- Nothing is below such a directory. -/
lemma Nest.kind_below {s : Nest} {place : FilePlace} (n : List UInt8)
    (hfiles : ∀ e ∈ s.files, e.1.length ≤ place.length) : s.tree.kind (place ++ [n]) = none := by
  by_contra hne
  obtain ⟨k, hk⟩ := Option.ne_none_iff_exists'.mp hne
  have hlength := hfiles _ (FileTree.mem_of_lookup hk)
  rw [List.length_append, List.length_singleton] at hlength
  exact Nat.not_succ_le_self _ hlength

/-- A kernel that removes directories only, and finds nothing else -/
def nestedDirectories : Kernel Nest where
  cwd := []
  limit := 40
  tree := Nest.tree
  rmdir := Nest.rmdir
  unlink s _ := (some 2, s)
  opendir s _ := (.error 2, s)
  rmdir_done s p h := by
    cases s with
    | three =>
      by_cases hp : p = bytes "a/b/d"
      · subst hp
        exact ⟨[bytes "a", bytes "b", bytes "d"], rfl, rfl,
          fun n => Nest.kind_below n (by decide), Nest.kind_remove rfl rfl⟩
      · rw [Nest.rmdir, if_neg hp] at h
        cases h
    | two =>
      by_cases hp : p = bytes "a/b"
      · subst hp
        exact ⟨[bytes "a", bytes "b"], rfl, rfl,
          fun n => Nest.kind_below n (by decide), Nest.kind_remove rfl rfl⟩
      · rw [Nest.rmdir, if_neg hp] at h
        cases h
    | one => cases h
  rmdir_failed s p e h := by
    cases s with
    | three =>
      rw [Nest.rmdir] at h ⊢
      split_ifs at h ⊢
      obtain rfl := Option.some.inj h
      exact ⟨by decide, rfl⟩
    | two =>
      rw [Nest.rmdir] at h ⊢
      split_ifs at h ⊢
      obtain rfl := Option.some.inj h
      exact ⟨by decide, rfl⟩
    | one =>
      obtain rfl := Option.some.inj h
      exact ⟨by decide, rfl⟩
  rmdir_notEmpty s p h := by
    cases s with
    | three =>
      rw [Nest.rmdir] at h
      split_ifs at h
      exact absurd h (by decide)
    | two =>
      rw [Nest.rmdir] at h
      split_ifs at h
      exact absurd h (by decide)
    | one => exact absurd (Option.some.inj h) (by decide)
  unlink_done _ _ h := by cases h
  unlink_failed _ _ _ h := by
    obtain rfl := Option.some.inj h
    exact ⟨by decide, rfl⟩
  opendir_done _ _ _ h := by cases h
  opendir_failed _ _ _ h := by
    obtain rfl := Except.error.inj h
    exact ⟨by decide, rfl⟩

/-- `a/b/d` -/
def nestedPath : CString := ⟨bytes "a/b/d", by decide⟩

/-- The directory `d` is removed and then its parent `b`, while `a` is not. -/
theorem purge_correct_parents : ∃ fuel result w',
    purge nestedDirectories fuel (bytes "a/b/d") false ⟨.three, 0, []⟩ = some (result, w') ∧
      Purged nestedDirectories Nest.three.tree (bytes "a/b/d") [bytes "a", bytes "b", bytes "d"] result
        w' :=
  purge_correct nestedDirectories nestedPath .three 0 [bytes "a", bytes "b", bytes "d"] rfl rfl false

end Nstd.Directory
