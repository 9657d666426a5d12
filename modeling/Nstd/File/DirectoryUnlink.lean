import Mathlib.Logic.Function.Basic
import Nstd.Core.FileTree

/-!
# `Directory::unlink`

A directory that is not empty is listed, and what is in it removed, directories in the same way.

* `Kernel` — what system calls answer, and what they promise.
* `World` — the state of the system, `errno`, and the calls so far.
* `unlink`, `unlinkLoop` — the code.
* `Unlinked` — what a call of `unlink` may leave; `rmdir_unlinked` for `rmdir` alone.
* `unlinkLoop_spec`, `unlink_spec` — the loop over a listing, and the recursion.
* **`unlink_correct`** — only the directory and what is below it is removed, the result is whether all of
  it is gone, and `errno` is that of the call that failed.

A listing has every name in a directory, so when each of them is gone `rmdir` finds it empty.
-/

namespace Nstd.Directory

/-! ## System calls -/

/-- `d_type` -/
inductive DirentType
  | directory
  | regular
  | link
  deriving DecidableEq

/-- The type that `readdir` reports -/
def FileType : FileKind → DirentType
  | .directory => .directory
  | .file => .regular
  | .link _ => .link

/-- `dirent` -/
structure Dirent where
  d_name : List UInt8
  d_type : DirentType
  deriving DecidableEq

def ENOTEMPTY : ℕ := 39

/-- A listing has the directory itself, the one above it and each of its files once. -/
structure Lists (t : FileTree) (place : FilePlace) (dp : List Dirent) : Prop where
  nodup : (dp.map Dirent.d_name).Nodup
  mem_iff : ∀ dent, dent ∈ dp ↔
    dent = ⟨bytes ".", .directory⟩ ∨ dent = ⟨bytes "..", .directory⟩ ∨
      ∃ k, t.kind (place ++ [dent.d_name]) = some k ∧ dent.d_type = FileType k

/-- **A kernel** with states `S`.  Calls return `none` for success, or the error; whether they succeed is
    its own choice in each state, and so is the order of a listing. -/
structure Kernel (S : Type) where
  cwd : FilePlace
  limit : ℕ
  tree : S → FileTree
  rmdir : S → List UInt8 → Option ℕ × S
  unlink : S → List UInt8 → Option ℕ × S
  opendir : S → List UInt8 → Except ℕ (List Dirent) × S
  /-- Only a directory without files is removed. -/
  rmdir_done : ∀ s p, (rmdir s p).1 = none → ∃ place,
    (tree s).entry limit cwd p = some place ∧ (tree s).kind place = some .directory ∧
      (∀ n, (tree s).kind (place ++ [n]) = none) ∧
      (tree (rmdir s p).2).kind = Function.update (tree s).kind place none
  rmdir_failed : ∀ s p e, (rmdir s p).1 = some e → e ≠ 0 ∧ tree (rmdir s p).2 = tree s
  rmdir_notEmpty : ∀ s p, (rmdir s p).1 = some ENOTEMPTY → ∃ place n,
    (tree s).entry limit cwd p = some place ∧ (tree s).kind place = some .directory ∧
      (tree s).kind (place ++ [n]) ≠ none
  /-- A link is removed itself. -/
  unlink_done : ∀ s p, (unlink s p).1 = none → ∃ place k,
    (tree s).entry limit cwd p = some place ∧ (tree s).kind place = some k ∧ k ≠ .directory ∧
      (tree (unlink s p).2).kind = Function.update (tree s).kind place none
  unlink_failed : ∀ s p e, (unlink s p).1 = some e → e ≠ 0 ∧ tree (unlink s p).2 = tree s
  /-- A link is followed. -/
  opendir_done : ∀ s p dp, (opendir s p).1 = .ok dp → tree (opendir s p).2 = tree s ∧
    ∃ place, (tree s).follow limit cwd p = some place ∧ Lists (tree s) place dp
  opendir_failed : ∀ s p e, (opendir s p).1 = .error e → e ≠ 0 ∧ tree (opendir s p).2 = tree s

inductive SystemCall
  | rmdir (path : List UInt8)
  | unlink (path : List UInt8)
  | opendir (path : List UInt8)
  deriving DecidableEq

/-- The system, `errno`, and the calls with their errors -/
structure Process (S : Type) where
  sys : S
  errno : ℕ
  calls : List (SystemCall × Option ℕ)

variable {S : Type} (K : Kernel S)

namespace Process

/-- A call has returned; `errno` is set if it has failed. -/
def returned (w : Process S) (call : SystemCall) (error : Option ℕ) (sys : S) : Process S :=
  ⟨sys, error.getD w.errno, w.calls ++ [(call, error)]⟩

/-- `rmdir(path) == 0` -/
def rmdir (w : Process S) (path : List UInt8) : Bool × Process S :=
  let (error, sys) := K.rmdir w.sys path
  (error.isNone, w.returned (.rmdir path) error sys)

/-- `opendir` -/
def opendir (w : Process S) (path : List UInt8) : Option (List Dirent) × Process S :=
  match K.opendir w.sys path with
  | (.ok dp, sys) => (some dp, w.returned (.opendir path) none sys)
  | (.error error, sys) => (none, w.returned (.opendir path) (some error) sys)

/-- `File::unlink` -/
def unlink (w : Process S) (path : List UInt8) : Bool × Process S :=
  let (error, sys) := K.unlink w.sys path
  (error.isNone, w.returned (.unlink path) error sys)

end Process

/-! ## The code -/

/-- `isDir && *str == '.' && (str[1] == '\0' || (str[1] == '.' && str[2] == '\0'))` -/
def Dirent.skipped (dent : Dirent) : Bool :=
  let str := dent.d_name
  dent.d_type = .directory ∧ str[0]? = some (ch '.') ∧
    (str[1]? = none ∨ (str[1]? = some (ch '.') ∧ str[2]? = none))

/-- The loop over a listing: whether it ends at its end, with `errno` as `readdir` left it -/
def unlinkLoop (unlinkDir : List UInt8 → Process S → Option (Bool × Process S))
    (dirPrefix : List UInt8) : List Dirent → Process S → Option (Bool × Process S)
  | [], w => some (w.errno = 0, w)
  | dent :: dp, w =>
    if dent.skipped then unlinkLoop unlinkDir dirPrefix dp w
    else if dent.d_type = .directory then do
      let (removed, w) ← unlinkDir (dirPrefix ++ dent.d_name) w
      if removed then unlinkLoop unlinkDir dirPrefix dp w else some (false, w)
    else
      let (removed, w) := w.unlink K (dirPrefix ++ dent.d_name)
      if removed then unlinkLoop unlinkDir dirPrefix dp w else some (false, w)

/-- `unlink`, for as many calls inside each other as there is `fuel` -/
def unlink : ℕ → List UInt8 → Bool → Process S → Option (Bool × Process S)
  | 0, _, _, _ => none
  | fuel + 1, dir, recursive, w =>
    let (removed, w) := w.rmdir K dir
    if removed then some (true, w)
    else if recursive = false ∨ w.errno ≠ ENOTEMPTY then some (false, w)
    else
      match w.opendir K dir with
      | (none, w) => some (false, w)
      | (some dp, w) => do
        let (finished, w) ← unlinkLoop K (fun path w => unlink fuel path true w)
          (dir ++ bytes "/") dp { w with errno := 0 }
        if finished then some (w.rmdir K dir) else some (false, w)

/-! ## One call -/

variable {K}

/-- **What a call may leave** of the directory at a place, and of `errno` -/
structure Unlinked (K : Kernel S) (place : FilePlace) (w : Process S) (result : Bool) (w' : Process S) :
    Prop where
  within : (K.tree w'.sys).Within (K.tree w.sys)
  outside : ∀ q, ¬ place <+: q → (K.tree w'.sys).kind q = (K.tree w.sys).kind q
  stays : result = false → (K.tree w'.sys).kind place = (K.tree w.sys).kind place
  gone : result = true → ∀ q, place <+: q → (K.tree w'.sys).kind q = none
  errno_kept : result = true → w'.errno = w.errno ∨ w'.errno = 0
  failed : result = false →
    ∃ call error, w'.calls.getLast? = some (call, some error) ∧ error ≠ 0 ∧ w'.errno = error

/-- A call has failed and changed nothing but `errno`. -/
lemma unlinked_of_failed {place : FilePlace} {w : Process S} {error : ℕ} {sys : S} (w₁ : Process S)
    (call : SystemCall) (hne : error ≠ 0) (htree : K.tree sys = K.tree w.sys) :
    Unlinked K place w false (w₁.returned call (some error) sys) where
  within := by
    rw [Process.returned, htree]
    exact FileTree.Within.refl _
  outside _ _ := by rw [Process.returned, htree]
  stays _ := by rw [Process.returned, htree]
  gone h := absurd h Bool.false_ne_true
  errno_kept h := absurd h Bool.false_ne_true
  failed _ := ⟨call, error, by simp [Process.returned], hne, rfl⟩

/-- The file at a place is gone, and nothing was below it. -/
lemma unlinked_of_done {place : FilePlace} {w : Process S} {call : SystemCall} {sys : S}
    (hbelow : ∀ n, (K.tree w.sys).kind (place ++ [n]) = none)
    (htree : (K.tree sys).kind = Function.update (K.tree w.sys).kind place none) :
    Unlinked K place w true (w.returned call none sys) where
  within q k hk := by
    rw [Process.returned, htree, Function.update_apply] at hk
    split_ifs at hk
    exact hk
  outside q hq := by
    have hne : q ≠ place := by
      rintro rfl
      exact hq (List.prefix_refl _)
    rw [Process.returned, htree, Function.update_of_ne hne]
  stays h := absurd h.symm Bool.false_ne_true
  gone _ q hq := by
    rw [Process.returned, htree]
    obtain ⟨rest, rfl⟩ := hq
    cases rest with
    | nil => rw [List.append_nil, Function.update_self]
    | cons n rest =>
      rw [Function.update_of_ne (by simp)]
      refine (K.tree w.sys).kind_below (hbelow n) ?_
      exact ⟨rest, by simp⟩
  errno_kept _ := Or.inl rfl
  failed h := absurd h.symm Bool.false_ne_true

/-- **`rmdir`** removes the directory that its path names, or fails. -/
lemma rmdir_unlinked {place : FilePlace} {w : Process S} {path : List UInt8}
    (hnames : (K.tree w.sys).Names K.cwd path place) :
    Unlinked K place w (w.rmdir K path).1 (w.rmdir K path).2 := by
  rw [Process.rmdir]
  rcases hcall : K.rmdir w.sys path with ⟨error, sys⟩
  cases error with
  | none =>
    obtain ⟨found, hentry, hkind, hbelow, htree⟩ := K.rmdir_done w.sys path (by rw [hcall])
    obtain rfl := hnames.entry_eq hentry hkind
    rw [hcall] at htree
    exact unlinked_of_done hbelow htree
  | some error =>
    obtain ⟨hne, htree⟩ := K.rmdir_failed w.sys path error (by rw [hcall])
    rw [hcall] at htree
    exact unlinked_of_failed w _ hne htree

lemma tree_of_rmdir {w w' : Process S} {path : List UInt8} (h : w.rmdir K path = (false, w')) :
    K.tree w'.sys = K.tree w.sys := by
  rw [Process.rmdir] at h
  rcases hcall : K.rmdir w.sys path with ⟨error, sys⟩
  rw [hcall] at h
  cases error with
  | none => exact nomatch (Prod.mk.inj h).1
  | some error =>
    obtain ⟨-, rfl⟩ := Prod.mk.inj h
    have htree := (K.rmdir_failed w.sys path error (by rw [hcall])).2
    rwa [hcall] at htree

/-- It changes nothing but what its path names. -/
lemma eq_of_rmdir {place q : FilePlace} {w : Process S} {path : List UInt8}
    (hnames : (K.tree w.sys).Names K.cwd path place)
    (hq : (K.tree (w.rmdir K path).2.sys).kind q ≠ (K.tree w.sys).kind q) : q = place := by
  rw [Process.rmdir] at hq
  rcases hcall : K.rmdir w.sys path with ⟨error, sys⟩
  rw [hcall] at hq
  cases error with
  | none =>
    obtain ⟨found, hentry, hkind, -, htree⟩ := K.rmdir_done w.sys path (by rw [hcall])
    obtain rfl := hnames.entry_eq hentry hkind
    rw [hcall] at htree
    by_contra hne
    exact hq ((congrFun htree q).trans (Function.update_of_ne hne _ _))
  | some error =>
    have htree := (K.rmdir_failed w.sys path error (by rw [hcall])).2
    rw [hcall] at htree
    exact absurd (congrArg (fun t => t.kind q) htree) hq

/-- **`unlink`** removes a file or a link in a directory, or fails. -/
lemma fileUnlink_unlinked {place : FilePlace} {w : Process S} {path n : List UInt8}
    (hnames : (K.tree w.sys).Names K.cwd path place) (hpath : path ≠ []) (hn : IsName n) :
    Unlinked K (place ++ [n]) w (w.unlink K (path ++ ch '/' :: n)).1
      (w.unlink K (path ++ ch '/' :: n)).2 := by
  rw [Process.unlink]
  rcases hcall : K.unlink w.sys (path ++ ch '/' :: n) with ⟨error, sys⟩
  cases error with
  | none =>
    obtain ⟨found, k, hentry, hkind, hk, htree⟩ := K.unlink_done w.sys _ (by rw [hcall])
    obtain rfl := hnames.entry_child hpath hn hentry
    rw [hcall] at htree
    refine unlinked_of_done (fun m => ?_) htree
    -- only a directory has files in it
    cases hm : (K.tree w.sys).kind (place ++ [n] ++ [m]) with
    | none => rfl
    | some k' =>
      have hparent := (K.tree w.sys).parents _ m k' hm
      rw [hkind] at hparent
      exact absurd (Option.some.inj hparent) hk
  | some error =>
    obtain ⟨hne, htree⟩ := K.unlink_failed w.sys _ error (by rw [hcall])
    rw [hcall] at htree
    exact unlinked_of_failed w _ hne htree

/-! ## A listing -/

/-- What the loop may leave of what is in the directory at a place -/
structure Emptied (K : Kernel S) (place : FilePlace) (w : Process S) (finished : Bool) (w' : Process S) :
    Prop where
  within : (K.tree w'.sys).Within (K.tree w.sys)
  outside : ∀ q, (∀ n, ¬ place ++ [n] <+: q) → (K.tree w'.sys).kind q = (K.tree w.sys).kind q
  errno_zero : finished = true → w'.errno = 0
  failed : finished = false →
    ∃ call error, w'.calls.getLast? = some (call, some error) ∧ error ≠ 0 ∧ w'.errno = error

variable {place : FilePlace} {w w₁ w' : Process S} {result finished : Bool} {n : List UInt8}

/-- One file is removed, and then others. -/
lemma Emptied.of_unlinked (h : Unlinked K (place ++ [n]) w result w₁)
    (h' : Emptied K place w₁ finished w') : Emptied K place w finished w' where
  within := h'.within.trans h.within
  outside q hq := (h'.outside q hq).trans (h.outside q (hq n))
  errno_zero := h'.errno_zero
  failed := h'.failed

lemma Emptied.of_failed (h : Unlinked K (place ++ [n]) w false w') : Emptied K place w false w' where
  within := h.within
  outside q hq := h.outside q (hq n)
  errno_zero hfinished := absurd hfinished Bool.false_ne_true
  failed := h.failed

/-- What is not below the directory is as it was, and the directory too. -/
lemma Emptied.kind_eq (h : Emptied K place w finished w') {q : FilePlace}
    (hq : ¬ place <+: q ∨ q = place) : (K.tree w'.sys).kind q = (K.tree w.sys).kind q := by
  refine h.outside q fun n hbelow => ?_
  rcases hq with hq | rfl
  · exact hq ((List.prefix_append place [n]).trans hbelow)
  · have hle := hbelow.length_le
    rw [List.length_append, List.length_singleton] at hle
    omega

/-- A file could not be removed. -/
lemma Emptied.unlinked (h : Emptied K place w₁ false w') (htree : K.tree w₁.sys = K.tree w.sys) :
    Unlinked K place w false w' where
  within := htree ▸ h.within
  outside _ hq := htree ▸ h.kind_eq (Or.inl hq)
  stays _ := htree ▸ h.kind_eq (Or.inr rfl)
  gone hresult := absurd hresult Bool.false_ne_true
  errno_kept hresult := absurd hresult Bool.false_ne_true
  failed := h.failed

/-- All files were removed, and then the directory. -/
lemma Emptied.rmdir {w₂ : Process S} (h : Emptied K place w₁ true w₂)
    (htree : K.tree w₁.sys = K.tree w.sys) (hlast : Unlinked K place w₂ result w') :
    Unlinked K place w result w' where
  within := hlast.within.trans (htree ▸ h.within)
  outside q hq := (hlast.outside q hq).trans (htree ▸ h.kind_eq (Or.inl hq))
  stays hresult := (hlast.stays hresult).trans (htree ▸ h.kind_eq (Or.inr rfl))
  gone := hlast.gone
  errno_kept hresult := Or.inr ((hlast.errno_kept hresult).elim (·.trans (h.errno_zero rfl)) id)
  failed := hlast.failed

/-- **The loop** removes what is listed until a call fails, and `errno` stays 0 while none does. -/
lemma unlinkLoop_spec (unlinkDir : List UInt8 → Process S → Option (Bool × Process S))
    {t : FileTree} {path : List UInt8} (hnames : t.Names K.cwd path place) (hpath : path ≠ [])
    (hdir : ∀ n w, IsName n → t.kind (place ++ [n]) = some .directory →
      (K.tree w.sys).Within t → ∃ result w', unlinkDir (path ++ ch '/' :: n) w = some (result, w') ∧
        Unlinked K (place ++ [n]) w result w')
    {dp : List Dirent} (hdp : ∀ dent ∈ dp, dent.skipped = true ∨ (IsName dent.d_name ∧
      (dent.d_type = .directory → t.kind (place ++ [dent.d_name]) = some .directory)))
    (hw : (K.tree w.sys).Within t) (herrno : w.errno = 0) :
    ∃ finished w', unlinkLoop K unlinkDir (path ++ bytes "/") dp w = some (finished, w') ∧
      Emptied K place w finished w' := by
  induction dp generalizing w with
  | nil =>
    refine ⟨true, w, by simp [unlinkLoop, herrno], ?_⟩
    exact ⟨FileTree.Within.refl _, fun _ _ => rfl, fun _ => herrno, fun h => nomatch h⟩
  | cons dent dp ih =>
    have hrest := fun d hd => hdp d (List.mem_cons_of_mem dent hd)
    have hjoin : path ++ bytes "/" ++ dent.d_name = path ++ ch '/' :: dent.d_name :=
      (List.append_cons path (ch '/') dent.d_name).symm
    rw [unlinkLoop, hjoin]
    by_cases hskip : dent.skipped = true
    · rw [if_pos hskip]
      exact ih hrest hw herrno
    · obtain ⟨hname, hkind⟩ := (hdp dent List.mem_cons_self).resolve_left hskip
      rw [if_neg hskip]
      -- behind a file that was removed, the loop goes on with `errno` 0
      have hnext : ∀ {w₁ : Process S}, Unlinked K (place ++ [dent.d_name]) w true w₁ →
          ∃ finished w', unlinkLoop K unlinkDir (path ++ bytes "/") dp w₁ = some (finished, w') ∧
            Emptied K place w finished w' := by
        intro w₁ hone
        have hzero : w₁.errno = 0 := (hone.errno_kept rfl).elim (fun h => h.trans herrno) id
        obtain ⟨finished, w', hloop, hemptied⟩ := ih hrest (hone.within.trans hw) hzero
        exact ⟨finished, w', hloop, Emptied.of_unlinked hone hemptied⟩
      split_ifs with htype
      · obtain ⟨result, w₁, hcall, hone⟩ := hdir dent.d_name w hname (hkind htype) hw
        rw [hcall]
        cases result with
        | true => exact hnext hone
        | false => exact ⟨false, w₁, rfl, Emptied.of_failed hone⟩
      · have hone := fileUnlink_unlinked (hnames.within hw) hpath hname
        rcases hcall : w.unlink K (path ++ ch '/' :: dent.d_name) with ⟨result, w₁⟩
        rw [hcall] at hone
        cases result with
        | true => exact hnext hone
        | false => exact ⟨false, w₁, rfl, Emptied.of_failed hone⟩

/-! ## The recursion -/

/-- What is in a listing is skipped, or has a name and the type that is in the tree. -/
lemma Lists.entries {t : FileTree} {dp : List Dirent} (h : Lists t place dp) :
    ∀ dent ∈ dp, dent.skipped = true ∨ (IsName dent.d_name ∧
      (dent.d_type = .directory → t.kind (place ++ [dent.d_name]) = some .directory)) := by
  intro dent hdent
  rcases (h.mem_iff dent).mp hdent with rfl | rfl | ⟨k, hk, htype⟩
  · exact Or.inl (by decide)
  · exact Or.inl (by decide)
  · refine Or.inr ⟨t.names _ _ k hk, fun hdir => ?_⟩
    cases k with
    | directory => exact hk
    | file => simp [hdir, FileType] at htype
    | link target => simp [hdir, FileType] at htype

lemma opendir_failed {path : List UInt8} (h : w₁.opendir K path = (none, w'))
    (htree : K.tree w₁.sys = K.tree w.sys) : Unlinked K place w false w' := by
  rw [Process.opendir] at h
  rcases hcall : K.opendir w₁.sys path with ⟨error | dp, sys⟩
  · rw [hcall] at h
    obtain ⟨-, rfl⟩ := Prod.mk.inj h
    obtain ⟨hne, htree'⟩ := K.opendir_failed w₁.sys path error (by rw [hcall])
    rw [hcall, htree] at htree'
    exact unlinked_of_failed w₁ _ hne htree'
  · rw [hcall] at h
    exact nomatch (Prod.mk.inj h).1

lemma opendir_lists {path : List UInt8} {dp : List Dirent} (h : w.opendir K path = (some dp, w'))
    (hnames : (K.tree w.sys).Names K.cwd path place) :
    K.tree w'.sys = K.tree w.sys ∧ Lists (K.tree w.sys) place dp := by
  rw [Process.opendir] at h
  rcases hcall : K.opendir w.sys path with ⟨listing | error, sys⟩
  · rw [hcall] at h
    exact nomatch (Prod.mk.inj h).1
  · rw [hcall] at h
    obtain ⟨hdp, rfl⟩ := Prod.mk.inj h
    obtain rfl := Option.some.inj hdp
    obtain ⟨htree, found, hfollow, hlists⟩ := K.opendir_done w.sys path _ (by rw [hcall])
    rw [hcall] at htree
    obtain rfl := hnames.follow_eq hfollow
    exact ⟨htree, hlists⟩

/-- Seen from a directory, files are one level less deep than from the one that it is in. -/
lemma depth_below {t t' : FileTree} (h : t'.Within t) {fuel : ℕ}
    (hdepth : ∀ q, t.kind q ≠ none → q.length < place.length + (fuel + 1))
    (hkind : t.kind (place ++ [n]) ≠ none) :
    0 < fuel ∧ ∀ q, t'.kind q ≠ none → q.length < (place ++ [n]).length + fuel := by
  have hlength : (place ++ [n]).length = place.length + 1 := by simp
  have hlen := hdepth (place ++ [n]) hkind
  refine ⟨by omega, fun q hq => ?_⟩
  rcases Option.ne_none_iff_exists'.mp hq with ⟨k, hk⟩
  have hq' := hdepth q (by simp [h q k hk])
  omega

/-- **The recursion** ends, as there are directories of a certain depth only. -/
theorem unlink_spec {fuel : ℕ} (hfuel : 0 < fuel) {path : List UInt8} (hpath : path ≠ [])
    (hnames : (K.tree w.sys).Names K.cwd path place)
    (hdepth : ∀ q, (K.tree w.sys).kind q ≠ none → q.length < place.length + fuel) :
    ∃ result w', unlink K fuel path true w = some (result, w') ∧ Unlinked K place w result w' := by
  induction fuel generalizing path place w with
  | zero => exact absurd hfuel (Nat.lt_irrefl 0)
  | succ fuel ih =>
    have hone := rmdir_unlinked hnames
    rw [unlink]
    rcases hcall : w.rmdir K path with ⟨removed, w₁⟩
    rw [hcall] at hone
    cases removed with
    | true => exact ⟨true, w₁, rfl, hone⟩
    | false =>
      have htree := tree_of_rmdir hcall
      simp only [Bool.false_eq_true, if_false, Bool.true_eq_false, false_or]
      by_cases herrno : w₁.errno ≠ ENOTEMPTY
      · rw [if_pos herrno]
        exact ⟨false, w₁, rfl, hone⟩
      · rw [if_neg herrno]
        rcases hopen : w₁.opendir K path with ⟨dp, w₂⟩
        cases dp with
        | none => exact ⟨false, w₂, rfl, opendir_failed hopen htree⟩
        | some dp =>
          have hnames' : (K.tree w₁.sys).Names K.cwd path place := by rwa [htree]
          obtain ⟨htree', hlists⟩ := opendir_lists hopen hnames'
          rw [htree] at htree' hlists
          have hdir : ∀ n v, IsName n → (K.tree w.sys).kind (place ++ [n]) = some .directory →
              (K.tree v.sys).Within (K.tree w.sys) → ∃ result v',
                unlink K fuel (path ++ ch '/' :: n) true v = some (result, v') ∧
                  Unlinked K (place ++ [n]) v result v' := by
            intro n v hn hkind hv
            have hbelow := depth_below hv hdepth (n := n) (by simp [hkind])
            exact ih hbelow.1 (by simp) ((hnames.child hpath hn hkind).within hv) hbelow.2
          have hspec := unlinkLoop_spec (fun path v => unlink K fuel path true v) hnames hpath
            hdir hlists.entries (w := { w₂ with errno := 0 })
          obtain ⟨finished, w₃, hloop, hemptied⟩ :=
            hspec (htree' ▸ FileTree.Within.refl _) rfl
          simp only [hloop]
          cases finished with
          | false => exact ⟨false, w₃, rfl, hemptied.unlinked htree'⟩
          | true =>
            have hwithin : (K.tree w₃.sys).Within (K.tree w.sys) :=
              hemptied.within.trans (htree' ▸ FileTree.Within.refl _)
            have hlast := rmdir_unlinked (hnames.within hwithin)
            exact ⟨_, _, rfl, hemptied.rmdir htree' hlast⟩

/-- What `unlink` is to do about the directory at a place of a tree -/
structure Correct (K : Kernel S) (t : FileTree) (place : FilePlace) (result : Bool) (w' : Process S) :
    Prop where
  removed : ∀ q, (K.tree w'.sys).kind q ≠ t.kind q → place <+: q ∧ (K.tree w'.sys).kind q = none
  result_iff : result = true ↔ ∀ q, place <+: q → (K.tree w'.sys).kind q = none
  failed : result = false →
    ∃ call error, w'.calls.getLast? = some (call, some error) ∧ error ≠ 0 ∧ w'.errno = error

lemma Unlinked.correct (h : Unlinked K place w result w')
    (hkind : (K.tree w.sys).kind place = some .directory) :
    Correct K (K.tree w.sys) place result w' where
  removed q hq := by
    constructor
    · by_contra hout
      exact hq (h.outside q hout)
    · by_contra hleft
      obtain ⟨k, hk⟩ := Option.ne_none_iff_exists'.mp hleft
      exact hq (hk.trans (h.within q k hk).symm)
  result_iff := by
    refine ⟨h.gone, fun hgone => ?_⟩
    by_contra hresult
    have hplace := h.stays (by simpa using hresult)
    rw [hgone place (List.prefix_refl _), hkind] at hplace
    exact nomatch hplace
  failed := h.failed

/-- **`unlink`** of a directory: with `recursive`, and without, where nothing but the directory itself
    is removed -/
theorem unlink_correct (K : Kernel S) (dir : CString) (s : S) (errno : ℕ) (place : FilePlace)
    (hdir : (K.tree s).follow K.limit K.cwd dir.bytes = some place)
    (hkind : (K.tree s).kind place = some .directory) :
    (∃ fuel result w', unlink K fuel dir.bytes true ⟨s, errno, []⟩ = some (result, w') ∧
      Correct K (K.tree s) place result w') ∧
    ∃ result w', unlink K 1 dir.bytes false ⟨s, errno, []⟩ = some (result, w') ∧
      Correct K (K.tree s) place result w' ∧
      ∀ q, (K.tree w'.sys).kind q ≠ (K.tree s).kind q → q = place := by
  have hnames : (K.tree s).Names K.cwd dir.bytes place := FileTree.names_of_follow hdir
  constructor
  · have hpath : dir.bytes ≠ [] := by
      rintro hnil
      simp [FileTree.follow, hnil] at hdir
    obtain ⟨depth, hdepth⟩ := (K.tree s).exists_depth
    have hall : ∀ q, (K.tree s).kind q ≠ none → q.length < place.length + (depth + 1) := by
      intro q hq
      have hle := hdepth q hq
      omega
    obtain ⟨result, w', hrun, hunlinked⟩ := unlink_spec (w := ⟨s, errno, []⟩) (Nat.succ_pos depth)
      hpath hnames hall
    exact ⟨depth + 1, result, w', hrun, hunlinked.correct hkind⟩
  · have hone := rmdir_unlinked (w := ⟨s, errno, []⟩) hnames
    have hchanged := fun q => eq_of_rmdir (w := ⟨s, errno, []⟩) (q := q) hnames
    rcases hcall : Process.rmdir K ⟨s, errno, []⟩ dir.bytes with ⟨removed, w₁⟩
    rw [hcall] at hone hchanged
    refine ⟨removed, w₁, ?_, hone.correct hkind, hchanged⟩
    rw [unlink, hcall]
    cases removed with
    | true => rfl
    | false => rfl

/-! ## A directory with a file -/

/-- What is left of a directory `d` with a file `f` -/
inductive Stage
  | all
  | directory
  | nothing

def Stage.files : Stage → List (FilePlace × FileKind)
  | all => [([], .directory), ([bytes "d"], .directory), ([bytes "d", bytes "f"], .file)]
  | directory => [([], .directory), ([bytes "d"], .directory)]
  | nothing => [([], .directory)]

lemma isName_d : IsName (bytes "d") := by decide

lemma isName_f : IsName (bytes "f") := by decide

def Stage.tree (s : Stage) : FileTree :=
  FileTree.ofList s.files (by cases s <;> simp [files, isName_d, isName_f]) (by cases s <;> decide)

/-- `rmdir("d")` -/
def Stage.rmdir : Stage → Option ℕ × Stage
  | all => (some ENOTEMPTY, all)
  | directory => (none, nothing)
  | nothing => (some 2, nothing)

/-- `unlink("d/f")` -/
def Stage.unlink : Stage → Option ℕ × Stage
  | all => (none, directory)
  | directory => (some 2, directory)
  | nothing => (some 2, nothing)

/-- `opendir("d")` -/
def Stage.opendir : Stage → Except ℕ (List Dirent) × Stage
  | all => (.ok [⟨bytes "f", .regular⟩, ⟨bytes ".", .directory⟩, ⟨bytes "..", .directory⟩], all)
  | directory => (.ok [⟨bytes ".", .directory⟩, ⟨bytes "..", .directory⟩], directory)
  | nothing => (.error 2, nothing)

/-- The directory is removed behind the file in it. -/
lemma Stage.kind_directory : Stage.directory.tree.kind
    = Function.update Stage.all.tree.kind [bytes "d", bytes "f"] none := by
  funext q
  rw [Function.update_apply]
  by_cases hfile : q = [bytes "d", bytes "f"]
  · subst hfile
    rfl
  · have hne : (q == [bytes "d", bytes "f"]) = false := beq_false_of_ne hfile
    rw [if_neg hfile]
    simp only [tree, FileTree.ofList, files, List.lookup_cons, hne, List.lookup_nil]

lemma Stage.kind_nothing : Stage.nothing.tree.kind
    = Function.update Stage.directory.tree.kind [bytes "d"] none := by
  funext q
  rw [Function.update_apply]
  by_cases hdirectory : q = [bytes "d"]
  · subst hdirectory
    rfl
  · have hne : (q == [bytes "d"]) = false := beq_false_of_ne hdirectory
    rw [if_neg hdirectory]
    simp only [tree, FileTree.ofList, files, List.lookup_cons, hne, List.lookup_nil]

/-- What is in the directory -/
lemma Stage.kind_below (s : Stage) (n : List UInt8) (k : FileKind) :
    s.tree.kind [bytes "d", n] = some k ↔ s = .all ∧ n = bytes "f" ∧ k = .file := by
  cases s with
  | all =>
    by_cases hn : n = bytes "f"
    · simp [tree, FileTree.ofList, files, List.lookup_cons, hn, eq_comm]
    · have hne : (n == bytes "f") = false := beq_false_of_ne hn
      simp [tree, FileTree.ofList, files, List.lookup_cons, hn, hne]
  | directory => simp [tree, FileTree.ofList, files, List.lookup_cons]
  | nothing => simp [tree, FileTree.ofList, files, List.lookup_cons]

lemma Stage.lists {s : Stage} {dp : List Dirent} (h : s.opendir.1 = .ok dp) :
    Lists s.tree [bytes "d"] dp := by
  cases s with
  | all =>
    obtain rfl := Except.ok.inj h
    refine ⟨by decide, fun dent => ?_⟩
    obtain ⟨d_name, d_type⟩ := dent
    simp [kind_below, FileType]
    tauto
  | directory =>
    obtain rfl := Except.ok.inj h
    refine ⟨by decide, fun dent => ?_⟩
    obtain ⟨d_name, d_type⟩ := dent
    simp [kind_below]
  | nothing => exact nomatch h

/-- A kernel that knows this directory, and finds no other file -/
def oneDirectory : Kernel Stage where
  cwd := []
  limit := 40
  tree := Stage.tree
  rmdir s p := if p = bytes "d" then s.rmdir else (some 2, s)
  unlink s p := if p = bytes "d/f" then s.unlink else (some 2, s)
  opendir s p := if p = bytes "d" then s.opendir else (.error 2, s)
  rmdir_done s p h := by
    by_cases hp : p = bytes "d"
    · rw [if_pos hp] at h ⊢
      subst hp
      cases s with
      | all => exact nomatch h
      | directory =>
        refine ⟨[bytes "d"], rfl, rfl, fun n => ?_, Stage.kind_nothing⟩
        simp [Stage.tree, FileTree.ofList, Stage.files, List.lookup_cons]
      | nothing => exact nomatch h
    · rw [if_neg hp] at h
      exact nomatch h
  rmdir_failed s p e h := by
    by_cases hp : p = bytes "d"
    · rw [if_pos hp] at h ⊢
      cases s with
      | all =>
        obtain rfl := Option.some.inj h
        exact ⟨by decide, rfl⟩
      | directory => exact nomatch h
      | nothing =>
        obtain rfl := Option.some.inj h
        exact ⟨by decide, rfl⟩
    · rw [if_neg hp] at h ⊢
      obtain rfl := Option.some.inj h
      exact ⟨by decide, rfl⟩
  rmdir_notEmpty s p h := by
    by_cases hp : p = bytes "d"
    · rw [if_pos hp] at h
      subst hp
      cases s with
      | all => exact ⟨[bytes "d"], bytes "f", rfl, rfl, by decide⟩
      | directory => exact nomatch h
      | nothing => exact absurd h (by decide)
    · rw [if_neg hp] at h
      exact absurd (Option.some.inj h) (by decide)
  unlink_done s p h := by
    by_cases hp : p = bytes "d/f"
    · rw [if_pos hp] at h ⊢
      subst hp
      cases s with
      | all =>
        exact ⟨[bytes "d", bytes "f"], .file, rfl, rfl, by decide, Stage.kind_directory⟩
      | directory => exact nomatch h
      | nothing => exact nomatch h
    · rw [if_neg hp] at h
      exact nomatch h
  unlink_failed s p e h := by
    by_cases hp : p = bytes "d/f"
    · rw [if_pos hp] at h ⊢
      cases s with
      | all => exact nomatch h
      | directory =>
        obtain rfl := Option.some.inj h
        exact ⟨by decide, rfl⟩
      | nothing =>
        obtain rfl := Option.some.inj h
        exact ⟨by decide, rfl⟩
    · rw [if_neg hp] at h ⊢
      obtain rfl := Option.some.inj h
      exact ⟨by decide, rfl⟩
  opendir_done s p dp h := by
    by_cases hp : p = bytes "d"
    · rw [if_pos hp] at h ⊢
      subst hp
      cases s with
      | all => exact ⟨rfl, [bytes "d"], rfl, Stage.lists h⟩
      | directory => exact ⟨rfl, [bytes "d"], rfl, Stage.lists h⟩
      | nothing => exact nomatch h
    · rw [if_neg hp] at h
      exact nomatch h
  opendir_failed s p e h := by
    by_cases hp : p = bytes "d"
    · rw [if_pos hp] at h ⊢
      cases s with
      | all => exact nomatch h
      | directory => exact nomatch h
      | nothing =>
        obtain rfl := Except.error.inj h
        exact ⟨by decide, rfl⟩
    · rw [if_neg hp] at h ⊢
      obtain rfl := Except.error.inj h
      exact ⟨by decide, rfl⟩

/-- The path of the directory -/
def pathOfDirectory : CString := ⟨bytes "d", by decide⟩

/-- The directory and the file are removed. -/
theorem unlink_correct_file :
    (∃ fuel result w', unlink oneDirectory fuel (bytes "d") true ⟨.all, 0, []⟩ = some (result, w') ∧
      Correct oneDirectory Stage.all.tree [bytes "d"] result w') ∧
    ∃ result w', unlink oneDirectory 1 (bytes "d") false ⟨.all, 0, []⟩ = some (result, w') ∧
      Correct oneDirectory Stage.all.tree [bytes "d"] result w' ∧
      ∀ q, (oneDirectory.tree w'.sys).kind q ≠ Stage.all.tree.kind q → q = [bytes "d"] :=
  unlink_correct oneDirectory pathOfDirectory .all 0 [bytes "d"] rfl rfl

end Nstd.Directory
