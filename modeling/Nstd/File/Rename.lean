import Mathlib.Logic.Function.Basic
import Nstd.Core.Bytes

/-!
# `File::rename`

A file that must not exist is first created, so that the file that is renamed can replace it.

* `Volume` — files, and what `open` with `O_CREAT | O_EXCL` and `rename` do to them.
* `rename` — the code.
* **`rename_iff`** — when a failure leaves the files as they were, and a success has moved the file;
  `left_behind`.

The file that was created first stays when the call of `rename` fails.
-/

namespace Nstd.File

/-- **A volume** with states `S`, whose paths name places `P`.  Whether calls succeed is its own choice in
    each state. -/
structure Volume (S P : Type) [DecidableEq P] where
  place : List UInt8 → P
  /-- The contents of the file at a place, if there is one -/
  files : S → P → Option (List UInt8)
  /-- `open` with `O_CREAT | O_EXCL`: whether it returns a descriptor -/
  create : S → List UInt8 → Bool × S
  /-- `rename`: whether it returns 0 -/
  move : S → List UInt8 → List UInt8 → Bool × S
  create_done : ∀ s p, (create s p).1 = true → files s (place p) = none ∧
    files (create s p).2 = Function.update (files s) (place p) (some [])
  create_failed : ∀ s p, (create s p).1 = false → files (create s p).2 = files s
  /-- A file that is renamed to itself stays. -/
  move_done : ∀ s p q, (move s p q).1 = true → files s (place p) ≠ none ∧
    files (move s p q).2 = if place p = place q then files s
      else Function.update (Function.update (files s) (place q) (files s (place p))) (place p) none
  move_failed : ∀ s p q, (move s p q).1 = false → files (move s p q).2 = files s

variable {S P : Type} [DecidableEq P]

/-- `rename` -/
def rename (v : Volume S P) (s : S) (origin target : List UInt8) (failIfExists : Bool) : Bool × S :=
  if failIfExists then
    match v.create s target with
    | (false, s) => (false, s)
    | (true, s) =>
      match v.move s origin target with
      | (false, s) => (false, s)
      | (true, s) => (true, s)
  else v.move s origin target

/-- A failure leaves the files as they were, and after a success the file is where none was. -/
def Renamed (v : Volume S P) (s : S) (origin target : List UInt8) (result : Bool × S) : Prop :=
  (result.1 = false → v.files result.2 = v.files s) ∧
    (result.1 = true → v.files s (v.place target) = none ∧
      v.files result.2 (v.place origin) = none ∧ v.files s (v.place origin) ≠ none ∧
      v.files result.2 (v.place target) = v.files s (v.place origin))

/-- Once the target was created, the file can be renamed, and is not the one that was created. -/
def Movable (v : Volume S P) (s : S) (origin target : List UInt8) : Prop :=
  (v.create s target).1 = true →
    (v.move (v.create s target).2 origin target).1 = true ∧ v.place origin ≠ v.place target

variable {v : Volume S P} {s s' : S} {origin target : List UInt8}

/-- A target that was created and stays is a change. -/
lemma files_ne_of_created (h : v.files s (v.place target) = none)
    (hcreated : v.files s' = Function.update (v.files s) (v.place target) (some [])) :
    v.files s' ≠ v.files s := by
  intro hsame
  have hplace := congrFun hsame (v.place target)
  rw [hcreated, h, Function.update_self] at hplace
  exact nomatch hplace

/-- After both calls the file has moved unless it is the one that was created. -/
lemma renamed_iff_ne {s₂ : S} (h : v.files s (v.place target) = none)
    (hcreated : v.files s' = Function.update (v.files s) (v.place target) (some []))
    (hsome : v.files s' (v.place origin) ≠ none)
    (hmoved : v.files s₂ = if v.place origin = v.place target then v.files s'
      else Function.update (Function.update (v.files s') (v.place target)
        (v.files s' (v.place origin))) (v.place origin) none) :
    Renamed v s origin target (true, s₂) ↔ v.place origin ≠ v.place target := by
  by_cases hsame : v.place origin = v.place target
  · rw [if_pos hsame] at hmoved
    refine iff_of_false (fun hrenamed => ?_) fun hne => hne hsame
    have hgone := (hrenamed.2 rfl).2.1
    rw [hmoved] at hgone
    exact hsome hgone
  · rw [if_neg hsame] at hmoved
    have hcontent : v.files s' (v.place origin) = v.files s (v.place origin) := by
      rw [hcreated, Function.update_of_ne hsame]
    rw [hcontent] at hmoved hsome
    refine iff_of_true ⟨fun hfailed => (nomatch hfailed), fun _ => ⟨h, ?_, hsome, ?_⟩⟩ hsame
    · rw [hmoved, Function.update_self]
    · rw [hmoved, Function.update_of_ne (Ne.symm hsame), Function.update_self]

/-- **`rename`** is atomic exactly if nothing fails once the target was created. -/
theorem rename_iff (v : Volume S P) (s : S) (origin target : CString) :
    Renamed v s origin.bytes target.bytes (rename v s origin.bytes target.bytes true) ↔
      Movable v s origin.bytes target.bytes := by
  rw [rename, if_pos rfl, Movable]
  rcases hopen : v.create s target.bytes with ⟨created, s₁⟩
  cases created with
  | false =>
    have hfiles := v.create_failed s target.bytes (by rw [hopen])
    rw [hopen] at hfiles
    exact iff_of_true ⟨fun _ => hfiles, fun h => nomatch h⟩ fun h => nomatch h
  | true =>
    obtain ⟨hnone, hfiles⟩ := v.create_done s target.bytes (by rw [hopen])
    rw [hopen] at hfiles
    simp only
    rcases hmove : v.move s₁ origin.bytes target.bytes with ⟨moved, s₂⟩
    cases moved with
    | false =>
      have hsame := v.move_failed s₁ origin.bytes target.bytes (by rw [hmove])
      rw [hmove] at hsame
      have hchanged := files_ne_of_created hnone (hsame.trans hfiles)
      exact iff_of_false (fun h => hchanged (h.1 rfl)) (by simp)
    | true =>
      obtain ⟨hsome, hmoved⟩ := v.move_done s₁ origin.bytes target.bytes (by rw [hmove])
      rw [hmove] at hmoved
      rw [renamed_iff_ne hnone hfiles hsome hmoved]
      simp

/-- A volume whose calls succeed wherever they can -/
def plainVolume : Volume (List UInt8 → Option (List UInt8)) (List UInt8) where
  place := id
  files := id
  create s p := if s p = none then (true, Function.update s p (some [])) else (false, s)
  move s p q :=
    if s p = none then (false, s)
    else if p = q then (true, s)
    else (true, Function.update (Function.update s q (s p)) p none)
  create_done s p h := by
    split_ifs at h ⊢ with hnone
    exact ⟨hnone, rfl⟩
  create_failed s p h := by
    split_ifs at h ⊢
    rfl
  move_done s p q h := by
    by_cases hnone : s p = none
    · simp [hnone] at h
    · by_cases hsame : p = q
      · subst hsame
        simp [hnone]
      · simp [hnone, hsame]
  move_failed s p q h := by
    split_ifs at h ⊢
    rfl

/-- Two names, of which neither is that of a file -/
def here : CString := ⟨bytes "a", by decide⟩

def there : CString := ⟨bytes "b", by decide⟩

/-- Where there is nothing to rename, an empty file is left behind. -/
theorem left_behind : ¬ ∀ (S P : Type) (_ : DecidableEq P) (v : Volume S P) (s : S)
    (origin target : CString),
    Renamed v s origin.bytes target.bytes (rename v s origin.bytes target.bytes true) := by
  intro h
  obtain ⟨hfailed, -⟩ := h _ _ _ plainVolume (fun _ => none) here there
  exact absurd (congrFun (hfailed rfl) there.bytes) (by decide)

end Nstd.File
