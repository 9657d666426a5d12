import Nstd.Core.Bytes

/-!
# `File::readAll`

The size of a file is asked for by seeking, and then as much is read from where it is, with one call.

* `Descriptor` — a file that is open, and what `lseek` and `read` may answer.
* `size`, `readAll` — the code.
* `size_spec` — the position stays, and the size is that of the file.
* **`readAll_iff`** — when nothing is lost and nothing left over; `short_read`.

One call may return less than it was asked for, and any length that is not negative is taken for
success.
-/

namespace Nstd.File

/-- `whence` -/
inductive Whence
  | seekSet
  | seekCur
  | seekEnd

/-- **A descriptor** with states `S`.  Whether calls succeed, and how much `read` gives of what is there, is
    its own choice in each state. -/
structure Descriptor (S : Type) where
  content : S → List UInt8
  position : S → ℕ
  /-- `lseek`: the new position, or `none` for -1 -/
  lseek : S → ℕ → Whence → Option ℕ × S
  /-- `read`: the bytes, or `none` for -1 -/
  read : S → ℕ → Option (List UInt8) × S
  lseek_content : ∀ s offset whence, content (lseek s offset whence).2 = content s
  lseek_done : ∀ s offset whence p, (lseek s offset whence).1 = some p →
    position (lseek s offset whence).2 = p ∧
      p = match whence with
        | .seekSet => offset
        | .seekCur => position s + offset
        | .seekEnd => (content s).length + offset
  lseek_failed : ∀ s offset whence, (lseek s offset whence).1 = none →
    position (lseek s offset whence).2 = position s
  read_content : ∀ s len, content (read s len).2 = content s
  /-- At least one byte is read unless none was asked for, or none is left. -/
  read_done : ∀ s len data, (read s len).1 = some data →
    data <+: (content s).drop (position s) ∧ data.length ≤ len ∧
      (data = [] → len = 0 ∨ (content s).length ≤ position s) ∧
      position (read s len).2 = position s + data.length
  read_failed : ∀ s len, (read s len).1 = none → position (read s len).2 = position s

variable {S : Type} (d : Descriptor S)

/-- `size`; `none` for -1 -/
def size (s : S) : Option ℕ × S :=
  match d.lseek s 0 .seekCur with
  | (none, s) => (none, s)
  | (some currentPosition, s) =>
    match d.lseek s 0 .seekEnd with
    | (none, s) => (none, s)
    | (some size, s) =>
      if currentPosition ≠ size then
        match d.lseek s currentPosition .seekSet with
        | (none, s) => (none, s)
        | (some _, s) => (some size, s)
      else (some size, s)

/-- `resize`; what is in new bytes is not known. -/
def resize (junk : ℕ → UInt8) (data : List UInt8) (len : ℕ) : List UInt8 :=
  data.take len ++ (List.range (len - data.length)).map junk

/-- `readAll`: whether it succeeds, and `data` -/
def readAll (junk : ℕ → UInt8) (s : S) (data : List UInt8) : Bool × List UInt8 × S :=
  match size d s with
  | (none, s) => (false, data, s)
  | (some fileSize, s) =>
    let data := resize junk data fileSize
    match d.read s data.length with
    | (none, s) => (false, [], s)
    | (some read, s) =>
      -- the bytes replace the first ones of `data`
      (true, resize junk (read ++ data.drop read.length) read.length, s)

variable {d}

/-- **The size** is that of the file, and the position is as before. -/
lemma size_spec {s s' : S} {fileSize : ℕ} (h : size d s = (some fileSize, s')) :
    fileSize = (d.content s).length ∧ d.position s' = d.position s ∧ d.content s' = d.content s := by
  rw [size] at h
  rcases hcur : d.lseek s 0 .seekCur with ⟨current, s₁⟩
  rw [hcur] at h
  cases current with
  | none => exact nomatch (Prod.mk.inj h).1
  | some current =>
    have hcontent₁ := d.lseek_content s 0 .seekCur
    obtain ⟨-, hcurrent⟩ := d.lseek_done s 0 .seekCur current (by rw [hcur])
    simp only [hcur, Nat.add_zero] at h hcontent₁ hcurrent
    rcases hend : d.lseek s₁ 0 .seekEnd with ⟨last, s₂⟩
    rw [hend] at h
    cases last with
    | none => exact nomatch (Prod.mk.inj h).1
    | some last =>
      have hcontent₂ := d.lseek_content s₁ 0 .seekEnd
      obtain ⟨hposition₂, hlast⟩ := d.lseek_done s₁ 0 .seekEnd last (by rw [hend])
      simp only [hend, Nat.add_zero, hcontent₁] at h hcontent₂ hposition₂ hlast
      by_cases hne : current ≠ last
      · rw [if_pos hne] at h
        rcases hset : d.lseek s₂ current .seekSet with ⟨back, s₃⟩
        rw [hset] at h
        cases back with
        | none => exact nomatch (Prod.mk.inj h).1
        | some back =>
          have hcontent₃ := d.lseek_content s₂ current .seekSet
          obtain ⟨hposition₃, hback⟩ := d.lseek_done s₂ current .seekSet back (by rw [hset])
          simp only [hset] at hcontent₃ hposition₃ hback
          obtain ⟨hsize, rfl⟩ := Prod.mk.inj h
          obtain rfl := Option.some.inj hsize
          exact ⟨hlast, by rw [hposition₃, hback, hcurrent], hcontent₃.trans hcontent₂⟩
      · -- the file is at its end, where `lseek` has left it
        rw [if_neg hne] at h
        obtain ⟨hsize, rfl⟩ := Prod.mk.inj h
        obtain rfl := Option.some.inj hsize
        exact ⟨hlast, by rw [hposition₂, ← not_not.mp hne, hcurrent], hcontent₂⟩

lemma length_resize (junk : ℕ → UInt8) (data : List UInt8) (len : ℕ) :
    (resize junk data len).length = len := by
  simp [resize]
  omega

/-- What was read is kept. -/
lemma resize_read (junk : ℕ → UInt8) (read rest : List UInt8) :
    resize junk (read ++ rest) read.length = read := by
  simp [resize]

/-- Nothing is lost, and nothing is left in `data` after a failure. -/
def ReadsAll (d : Descriptor S) (s : S) (result : Bool × List UInt8 × S) : Prop :=
  (result.1 = true → result.2.1 = (d.content s).drop (d.position s)) ∧
    (result.1 = false → result.2.1 = [])

/-- `read` fails or gives all that is left; where seeking fails, `data` is empty before. -/
def Complete (d : Descriptor S) (s : S) (data : List UInt8) : Prop :=
  match size d s with
  | (none, _) => data = []
  | (some fileSize, s') => ∀ read, (d.read s' fileSize).1 = some read →
      read.length = (d.content s).length - d.position s

/-- **`readAll`** reads everything exactly if `read` does not stop early, and leaves nothing behind if
    `data` was empty. -/
theorem readAll_iff (d : Descriptor S) (junk : ℕ → UInt8) (s : S) (data : List UInt8) :
    ReadsAll d s (readAll d junk s data) ↔ Complete d s data := by
  rw [readAll, Complete]
  rcases hsize : size d s with ⟨fileSize, s'⟩
  cases fileSize with
  | none => simp [ReadsAll]
  | some fileSize =>
    obtain ⟨-, hposition, hcontent⟩ := size_spec hsize
    simp only [length_resize]
    rcases hread : d.read s' fileSize with ⟨read, s''⟩
    cases read with
    | none => simp [ReadsAll]
    | some read =>
      obtain ⟨hbytes, -⟩ := d.read_done s' fileSize read (by rw [hread])
      rw [hposition, hcontent] at hbytes
      have hall : read = (d.content s).drop (d.position s) ↔
          read.length = (d.content s).length - d.position s := by
        rw [← List.length_drop]
        exact ⟨congrArg List.length, hbytes.eq_of_length⟩
      simp [ReadsAll, resize_read, hall]

/-- A file of which `read` gives one byte at a time; its state is where it is. -/
def slowFile (content : List UInt8) : Descriptor ℕ where
  content _ := content
  position s := s
  lseek s offset whence :=
    let p := match whence with
      | .seekSet => offset
      | .seekCur => s + offset
      | .seekEnd => content.length + offset
    (some p, p)
  read s len :=
    let data := (content.drop s).take (min len 1)
    (some data, s + data.length)
  lseek_content _ _ _ := rfl
  lseek_done s offset whence p h := ⟨Option.some.inj h, (Option.some.inj h).symm⟩
  lseek_failed s offset whence h := nomatch h
  read_content _ _ := rfl
  read_done s len data h := by
    obtain rfl := Option.some.inj h
    refine ⟨List.take_prefix _ _, ?_, fun hnil => ?_, rfl⟩
    · rw [List.length_take]
      omega
    · rcases List.take_eq_nil_iff.mp hnil with hlen | hend
      · exact Or.inl (by omega)
      · exact Or.inr (List.drop_eq_nil_iff.mp hend)
  read_failed s len h := nomatch h

/-- Of two bytes one is lost. -/
theorem short_read : ¬ ∀ (S : Type) (d : Descriptor S) (junk : ℕ → UInt8) (s : S)
    (data : List UInt8), ReadsAll d s (readAll d junk s data) := by
  intro h
  have hall := (h ℕ (slowFile [1, 2]) (fun _ => 0) 0 []).1 (by decide)
  exact absurd hall (by decide)

end Nstd.File
