import Nstd.Core.Bytes

/-!
# Arguments of the Microsoft C runtime

How a program gets its arguments from its command line.

* `Reader`, `Reader.read`, `feed` — the rules, a character at a time.
* `parse` — the name of the program and its arguments.
* `Reader.Adds` — characters that are taken as they are.
* `feed_backslashes`, `read_closing`, `read_literal` — backslashes in front of a quote.
* `quotes_read` — a quote gets into an argument only behind an odd number of backslashes.
-/

namespace Nstd.CrtArguments

/-! ## The rules -/

/-- What has been read: whether this is between quotes, how many backslashes were just read, the
    argument that is not finished, if one has begun, and those that are -/
structure Reader where
  quoted : Bool
  pending : ℕ
  arg : Option (List UInt8)
  args : List (List UInt8)

/-- So many backslashes -/
abbrev backslashes (n : ℕ) : List UInt8 := List.replicate n (ch '\\')

/-- What separates arguments -/
def isDelimiter (c : UInt8) : Bool := c = ch ' ' || c = ch '\t'

/-- The argument, if nothing changes the meaning of the backslashes -/
def Reader.text (r : Reader) : List UInt8 := r.arg.getD [] ++ backslashes r.pending

/-- The arguments, if this is the end of one -/
def Reader.close (r : Reader) : List (List UInt8) :=
  if r.arg.isSome then r.args ++ [r.text] else r.args

/-- One character -/
def Reader.read (r : Reader) (c : UInt8) : Reader :=
  if c = ch '\\' then { r with pending := r.pending + 1, arg := some (r.arg.getD []) }
  else if c = ch '"' then
    let arg := r.arg.getD [] ++ backslashes (r.pending / 2)
    if r.pending % 2 = 0 then { r with quoted := !r.quoted, pending := 0, arg := some arg }
    else { r with pending := 0, arg := some (arg ++ [ch '"']) }
  else if isDelimiter c && !r.quoted then ⟨false, 0, none, r.close⟩
  else { r with pending := 0, arg := some (r.text ++ [c]) }

/-- Some characters -/
def feed (r : Reader) (line : List UInt8) : Reader := line.foldl Reader.read r

/-- The name of the program, where backslashes mean nothing, and what is behind it -/
def readProgram : Bool → List UInt8 → List UInt8 × List UInt8
  | _, [] => ([], [])
  | quoted, c :: line =>
    if c = ch '"' then readProgram (!quoted) line
    else if isDelimiter c && !quoted then ([], c :: line)
    else (c :: (readProgram quoted line).1, (readProgram quoted line).2)

/-- `argv` of the program -/
def parse (line : List UInt8) : List (List UInt8) :=
  (readProgram false line).1 :: (feed ⟨false, 0, none, []⟩ (readProgram false line).2).close

lemma isDelimiter_eq_false {c : UInt8} (hspace : c ≠ ch ' ') (htab : c ≠ ch '\t') :
    isDelimiter c = false := by
  simp [isDelimiter, hspace, htab]

lemma feed_append (r : Reader) (line line' : List UInt8) :
    feed r (line ++ line') = feed (feed r line) line' := List.foldl_append

lemma feed_cons (r : Reader) (c : UInt8) (line : List UInt8) :
    feed r (c :: line) = feed (r.read c) line := rfl

/-! ## Characters that are taken as they are -/

/-- The word is added to the argument. -/
structure Reader.Adds (r : Reader) (word : List UInt8) (r' : Reader) : Prop where
  quoted : r'.quoted = r.quoted
  args : r'.args = r.args
  begun : r'.arg.isSome
  text : r'.text = r.text ++ word

lemma Reader.Adds.trans {r r' r'' : Reader} {word word' : List UInt8} (h : r.Adds word r')
    (h' : r'.Adds word' r'') : r.Adds (word ++ word') r'' :=
  ⟨h'.quoted.trans h.quoted, h'.args.trans h.args, h'.begun, by
    rw [h'.text, h.text, List.append_assoc]⟩

lemma adds_read (r : Reader) {c : UInt8} (hquote : c ≠ ch '"') (hdelimiter : isDelimiter c = false) :
    r.Adds [c] (r.read c) := by
  by_cases hbackslash : c = ch '\\'
  · subst hbackslash
    refine ⟨rfl, rfl, rfl, ?_⟩
    simp [Reader.text, Reader.read, List.replicate_succ']
  · have hread : r.read c = { r with pending := 0, arg := some (r.text ++ [c]) } := by
      simp [Reader.read, hbackslash, hquote, hdelimiter]
    rw [hread]
    exact ⟨rfl, rfl, rfl, by simp [Reader.text]⟩

/-- A word without quotes and delimiters -/
lemma adds_feed (r : Reader) {word : List UInt8} (hne : word ≠ [])
    (hword : ∀ c ∈ word, c ≠ ch '"' ∧ isDelimiter c = false) : r.Adds word (feed r word) := by
  induction word generalizing r with
  | nil => exact absurd rfl hne
  | cons c word ih =>
    have hc := hword c List.mem_cons_self
    have hadds := adds_read r hc.1 hc.2
    rw [feed_cons]
    by_cases hnil : word = []
    · subst hnil
      exact hadds
    · exact hadds.trans (ih _ hnil fun d hd => hword d (List.mem_cons_of_mem c hd))

/-- The end of an argument -/
lemma Reader.Adds.close {r r' : Reader} {word : List UInt8} (h : r.Adds word r') :
    r'.close = r.args ++ [r.text ++ word] := by
  rw [Reader.close, if_pos h.begun, h.args, h.text]

lemma read_delimiter {r : Reader} (hquoted : r.quoted = false) :
    r.read (ch ' ') = ⟨false, 0, none, r.close⟩ := by
  have hspace : isDelimiter (ch ' ') = true := rfl
  have hbackslash : ch ' ' ≠ ch '\\' := by decide
  have hquote : ch ' ' ≠ ch '"' := by decide
  simp [Reader.read, hbackslash, hquote, hspace, hquoted]

/-- The name of a program without quotes and delimiters -/
lemma readProgram_eq {program : List UInt8}
    (h : ∀ c ∈ program, c ≠ ch '"' ∧ isDelimiter c = false) {rest : List UInt8}
    (hrest : rest = [] ∨ rest.head? = some (ch ' ')) :
    readProgram false (program ++ rest) = (program, rest) := by
  induction program with
  | nil =>
    rcases hrest with rfl | hspace
    · rfl
    · obtain ⟨line, rfl⟩ := List.head?_eq_some_iff.mp hspace
      rfl
  | cons c program ih =>
    have hc := h c List.mem_cons_self
    rw [List.cons_append, readProgram, if_neg hc.1, hc.2,
      ih fun d hd => h d (List.mem_cons_of_mem c hd)]
    rfl

/-! ## Backslashes in front of a quote -/

section

variable (quoted : Bool) (n k : ℕ) (arg : List UInt8) (args : List (List UInt8))

lemma feed_backslashes :
    feed ⟨quoted, n, some arg, args⟩ (backslashes k) = ⟨quoted, n + k, some arg, args⟩ := by
  induction k generalizing n with
  | zero => rfl
  | succ k ih =>
    rw [backslashes, List.replicate_succ, feed_cons]
    exact (ih (n + 1)).trans (by rw [Nat.add_right_comm, Nat.add_assoc])

/-- A quote where no argument has begun -/
lemma read_opening : Reader.read ⟨false, 0, none, args⟩ (ch '"') = ⟨true, 0, some [], args⟩ := by
  have hquote : ch '"' ≠ ch '\\' := by decide
  simp [Reader.read, hquote]

/-- An even number of backslashes: the quote opens or closes. -/
lemma read_closing : Reader.read ⟨quoted, 2 * k, some arg, args⟩ (ch '"')
    = ⟨!quoted, 0, some (arg ++ backslashes k), args⟩ := by
  have hquote : ch '"' ≠ ch '\\' := by decide
  simp [Reader.read, hquote]

/-- An odd number of them: the quote belongs to the argument. -/
lemma read_literal : Reader.read ⟨quoted, 2 * k + 1, some arg, args⟩ (ch '"')
    = ⟨quoted, 0, some (arg ++ backslashes k ++ [ch '"']), args⟩ := by
  have hquote : ch '"' ≠ ch '\\' := by decide
  have hhalf : (2 * k + 1) / 2 = k := by omega
  simp [Reader.read, hquote, hhalf]

/-- Between quotes other characters are taken as they are, and backslashes in front of them. -/
lemma read_inside {c : UInt8} (hbackslash : c ≠ ch '\\') (hquote : c ≠ ch '"') :
    Reader.read ⟨true, k, some arg, args⟩ c = ⟨true, 0, some (arg ++ backslashes k ++ [c]), args⟩ := by
  simp [Reader.read, hbackslash, hquote, Reader.text]

end

/-! ## Counting quotes -/

/-- The quotes in the arguments -/
def Reader.quotes (r : Reader) : ℕ := (r.args.flatten ++ r.arg.getD []).count (ch '"')

lemma count_backslashes (n : ℕ) : (backslashes n).count (ch '"') = 0 :=
  List.count_eq_zero.mpr fun h => absurd (List.eq_of_mem_replicate h) (by decide)

lemma pending_read (r : Reader) (c : UInt8) :
    (r.read c).pending = if c = ch '\\' then r.pending + 1 else 0 := by
  rw [Reader.read]
  split_ifs <;> rfl

lemma count_close (r : Reader) : r.close.flatten.count (ch '"') = r.quotes := by
  rcases r with ⟨quoted, pending, - | arg, args⟩
  · simp [Reader.close, Reader.quotes]
  · simp [Reader.close, Reader.quotes, Reader.text, count_backslashes]

/-- **A quote gets into an argument** only behind an odd number of backslashes. -/
lemma quotes_read (r : Reader) (c : UInt8) :
    (r.read c).quotes = r.quotes + if c = ch '"' ∧ r.pending % 2 = 1 then 1 else 0 := by
  by_cases hbackslash : c = ch '\\'
  · subst hbackslash
    have hquote : ch '\\' ≠ ch '"' := by decide
    simp [Reader.read, Reader.quotes, hquote]
  · by_cases hquote : c = ch '"'
    · subst hquote
      rcases Nat.mod_two_eq_zero_or_one r.pending with heven | hodd
      · simp [Reader.read, hbackslash, heven, Reader.quotes, count_backslashes]
      · simp [Reader.read, hbackslash, hodd, Reader.quotes, count_backslashes]
        omega
    · have hnone : ((if c = ch '"' ∧ r.pending % 2 = 1 then 1 else 0) : ℕ) = 0 :=
        if_neg fun h => hquote h.1
      rw [hnone, Nat.add_zero, Reader.read, if_neg hbackslash, if_neg hquote]
      split_ifs
      · simpa [Reader.quotes] using count_close r
      · simp [Reader.quotes, Reader.text, count_backslashes, hquote]

lemma quotes_feed {line : List UInt8} (h : ch '"' ∉ line) (r : Reader) :
    (feed r line).quotes = r.quotes := by
  induction line generalizing r with
  | nil => rfl
  | cons c line ih =>
    rw [List.mem_cons, not_or] at h
    rw [feed_cons, ih h.2, quotes_read, if_neg fun hc => h.1 hc.1.symm, Nat.add_zero]

lemma pending_feed_backslashes (r : Reader) (k : ℕ) :
    (feed r (backslashes k)).pending = r.pending + k := by
  induction k generalizing r with
  | zero => rfl
  | succ k ih =>
    rw [backslashes, List.replicate_succ, feed_cons]
    refine (ih (r.read (ch '\\'))).trans ?_
    rw [pending_read, if_pos rfl, Nat.add_assoc, Nat.add_comm 1 k]

end Nstd.CrtArguments
