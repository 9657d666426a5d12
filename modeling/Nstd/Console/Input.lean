import Mathlib.Logic.Function.Basic
import Nstd.Text.Utf8

/-!
# The input of `Console`

Keys are read into a buffer of the caller, which none of the functions knows the size of.

* `Reader` — the bytes to come, the buffer, and where something was written to it.
* `readUnbufferedEscapedSequence`, …, `readNextUnbufferedEscapedSequence` — the code; `none` where
  the bytes run out.
* `Short` — an escape sequence that fits in the buffer.
* `escape`, `escapes` — the escape sequences that a call reads.
* **`writes_iff`** — writes stay in the buffer exactly if these sequences are short; `long_sequence`.

A sequence is written to the buffer while it is read, and ends with its final byte only.  So the
furthest write is known from the bytes to come.
-/

namespace Nstd.Console

/-! ## Functions -/

/-- `bufferedInput`, the bytes that `read` will get, the memory from the caller's buffer on, and the
    indices that were written -/
structure Reader where
  bufferedInput : List UInt8
  stdin : List UInt8
  buffer : ℕ → UInt8
  writes : List ℕ

/-- The size of the buffer in `getLine` and in `getCursorPosition` -/
def bufferSize : ℕ := 64

/-- `\x1b` -/
def esc : UInt8 := 0x1b

/-- `isSeqAttributeChar` -/
def isSeqAttributeChar (c : UInt8) : Bool := isDigit c ∨ c = ch ';' ∨ c = ch '?' ∨ c = ch '['

/-- `buffer[i] = c` -/
def Reader.put (r : Reader) (i : ℕ) (c : UInt8) : Reader :=
  { r with buffer := Function.update r.buffer i c, writes := r.writes ++ [i] }

/-- The loop of `readUnbufferedEscapedSequence`: the length of the sequence, or `none` if the bytes
    run out before it has ended -/
def unbufferedSequence (seqStart start : ℕ) : List UInt8 → ℕ → Reader → Option ℕ × Reader
  | [], _, r => (none, r)
  | c :: stdin, buffer, r =>
    let r := { r with stdin := stdin }.put buffer c
    if r.buffer (seqStart + 1) ≠ ch '[' ∨ ¬ isSeqAttributeChar c then
      (some (buffer + 1 - start), r.put (buffer + 1) 0)
    else unbufferedSequence seqStart start stdin (buffer + 1) r

/-- `readUnbufferedEscapedSequence` -/
def readUnbufferedEscapedSequence (seqStart buffer : ℕ) (r : Reader) : Option ℕ × Reader :=
  unbufferedSequence seqStart buffer r.stdin buffer r

/-- The loop of `readBufferedEscapedSequence` -/
def bufferedSequence (seqStart start : ℕ) : List UInt8 → ℕ → Reader → Option ℕ × Reader
  | [], buffer, r =>
    let (len, r) := readUnbufferedEscapedSequence seqStart buffer r
    (len.map (buffer - start + ·), r)
  | c :: bufferedInput, buffer, r =>
    let r := { r with bufferedInput := bufferedInput }.put buffer c
    if r.buffer (seqStart + 1) ≠ ch '[' ∨ ¬ isSeqAttributeChar c then
      (some (buffer + 1 - start), r.put (buffer + 1) 0)
    else bufferedSequence seqStart start bufferedInput (buffer + 1) r

/-- `readBufferedEscapedSequence` -/
def readBufferedEscapedSequence (seqStart buffer : ℕ) (r : Reader) : Option ℕ × Reader :=
  bufferedSequence seqStart buffer r.bufferedInput buffer r

/-- The loop of `readUnbufferedUtf8Char` -/
def unbufferedUtf8 (start len : ℕ) : List UInt8 → ℕ → Reader → Option ℕ × Reader
  | stdin, buffer, r =>
    if buffer - start < len then
      match stdin with
      | [] => (none, r)
      | c :: stdin => unbufferedUtf8 start len stdin (buffer + 1) ({ r with stdin := stdin }.put buffer c)
    else (some len, r.put buffer 0)

/-- `readUnbufferedUtf8Char` -/
def readUnbufferedUtf8Char (start buffer len : ℕ) (r : Reader) : Option ℕ × Reader :=
  unbufferedUtf8 start len r.stdin buffer r

/-- `1 + n` for a function that starts behind an `\x1b` -/
def behindEsc (result : Option ℕ × Reader) : Option ℕ × Reader := (result.1.map (1 + ·), result.2)

/-- `bufferedInput.prepend(data)`, once a sequence has been read -/
def prependBehind (data : List UInt8) : Option ℕ × Reader → Option ℕ × Reader
  | (none, r) => (none, r)
  | (some result, r) => (some result, { r with bufferedInput := data ++ r.bufferedInput })

/-- The loop of `readBufferedUtf8Char` -/
def bufferedUtf8 (start len : ℕ) : List UInt8 → ℕ → Reader → Option ℕ × Reader
  | bufferedInput, buffer, r =>
    if buffer - start < len then
      match bufferedInput with
      | [] => readUnbufferedUtf8Char start buffer len r
      | c :: bufferedInput =>
        let r := { r with bufferedInput := bufferedInput }.put buffer c
        if c = esc then
          let incompleteUtf8 := (List.range' start (buffer - start)).map r.buffer
          prependBehind incompleteUtf8
            (behindEsc (readBufferedEscapedSequence start (start + 1) (r.put start esc)))
        else bufferedUtf8 start len bufferedInput (buffer + 1) r
    else (some len, r.put buffer 0)

/-- `readBufferedUtf8Char` -/
def readBufferedUtf8Char (buffer : ℕ) (r : Reader) : Option ℕ × Reader :=
  match r.bufferedInput with
  | [] =>
    match r.stdin with
    | [] => (none, r)
    | c :: stdin =>
      let r := { r with stdin := stdin }.put buffer c
      if c = esc then behindEsc (readUnbufferedEscapedSequence buffer (buffer + 1) r)
      else readUnbufferedUtf8Char buffer (buffer + 1) (Unicode.length c) r
  | c :: bufferedInput =>
    let r := { r with bufferedInput := bufferedInput }.put buffer c
    if c = esc then behindEsc (readBufferedEscapedSequence buffer (buffer + 1) r)
    else bufferedUtf8 buffer (Unicode.length c) bufferedInput (buffer + 1) r

/-- `readUnbufferedChar` -/
def readUnbufferedChar (buffer : ℕ) (r : Reader) : Option ℕ × Reader :=
  match r.stdin with
  | [] => (none, r)
  | c :: stdin =>
    let r := { r with stdin := stdin }.put buffer c
    if c = esc then behindEsc (readUnbufferedEscapedSequence buffer (buffer + 1) r)
    else (some 1, r.put (buffer + 1) 0)

/-- `readBufferedChar` -/
def readBufferedChar (buffer : ℕ) (r : Reader) : Option ℕ × Reader :=
  match r.bufferedInput with
  | [] => readUnbufferedChar buffer r
  | c :: bufferedInput =>
    let r := { r with bufferedInput := bufferedInput }.put buffer c
    if c = esc then behindEsc (readBufferedEscapedSequence buffer (buffer + 1) r)
    else (some 1, r.put (buffer + 1) 0)

/-- `readChar` -/
def readChar (utf8 : Bool) (buffer : ℕ) (r : Reader) : Option ℕ × Reader :=
  if utf8 then readBufferedUtf8Char buffer r else readBufferedChar buffer r

lemma length_unbufferedSequence (seqStart start : ℕ) (stdin : List UInt8) (buffer : ℕ) (r : Reader)
    (h : r.stdin.length ≤ stdin.length) :
    (unbufferedSequence seqStart start stdin buffer r).2.stdin.length ≤ stdin.length := by
  induction stdin generalizing buffer r with
  | nil => exact h
  | cons c stdin ih =>
    rw [unbufferedSequence]
    split_ifs
    · exact Nat.le_succ _
    · exact Nat.le_succ_of_le (ih _ _ le_rfl)

/-- `readNextUnbufferedEscapedSequence` -/
def readNextUnbufferedEscapedSequence (buffer : ℕ) (firschar laschar : UInt8) (r : Reader) :
    Option ℕ × Reader :=
  match _hin : r.stdin with
  | [] => (none, r)
  | c :: stdin =>
    if c = esc then
      match _hseq : behindEsc (readUnbufferedEscapedSequence buffer (buffer + 1)
          (({ r with stdin := stdin }.put buffer c).put (buffer + 1) 0)) with
      | (none, r') => (none, r')
      | (some len, r') =>
        if r'.buffer (buffer + (len - 1)) ≠ laschar ∨ r'.buffer (buffer + 1) ≠ firschar then
          readNextUnbufferedEscapedSequence buffer firschar laschar
            { r' with bufferedInput :=
                r'.bufferedInput ++ (List.range' buffer len).map r'.buffer }
        else (some len, r')
    else
      readNextUnbufferedEscapedSequence buffer firschar laschar
        { r with stdin := stdin, bufferedInput := r.bufferedInput ++ [c] }
  termination_by r.stdin.length
  decreasing_by
  · have hle := length_unbufferedSequence buffer (buffer + 1) stdin (buffer + 1)
      (({ r with stdin := stdin }.put buffer c).put (buffer + 1) 0) le_rfl
    have hr' : (unbufferedSequence buffer (buffer + 1) stdin (buffer + 1)
        (({ r with stdin := stdin }.put buffer c).put (buffer + 1) 0)).2 = r' :=
      congrArg Prod.snd _hseq
    rw [hr'] at hle
    simp only [_hin, List.length_cons]
    omega
  · simp [_hin]

/-! ## Escape sequences -/

/-- How many bytes are stored for attribute characters, a last character and a terminator -/
def attributesStored (rest : List UInt8) : ℕ :=
  (rest.takeWhile isSeqAttributeChar).length +
    if rest.dropWhile isSeqAttributeChar = [] then 0 else 2

/-- How many bytes are stored for a sequence behind its `\x1b`, with a terminator once it has ended -/
def stored : List UInt8 → ℕ
  | [] => 0
  | c :: rest => if c = ch '[' then attributesStored rest + 1 else 2

/-- A sequence fits in the buffer, behind its `\x1b`. -/
def Short (rest : List UInt8) : Prop := stored rest < bufferSize

/-- An `\x1b` among the next `n` buffered bytes: what comes behind it -/
def inside : ℕ → List UInt8 → List UInt8 → Option (List UInt8)
  | 0, _, _ => none
  | _ + 1, [], _ => none
  | n + 1, c :: bufferedInput, stdin =>
    if c = esc then some (bufferedInput ++ stdin) else inside n bufferedInput stdin

@[simp] lemma inside_nil (n : ℕ) (stdin : List UInt8) : inside n [] stdin = none := by
  cases n <;> rfl

/-- What comes behind the `\x1b` that `readChar` finds, if it finds one -/
def escape (utf8 : Bool) (bufferedInput stdin : List UInt8) : Option (List UInt8) :=
  match bufferedInput ++ stdin with
  | [] => none
  | c :: rest =>
    if c = esc then some rest
    else if utf8 then inside (Unicode.length c - 1) bufferedInput.tail stdin else none

/-- A sequence that ends: the byte behind its `\x1b`, its last byte, and what is left -/
def ended : List UInt8 → Option (UInt8 × UInt8 × List UInt8)
  | [] => none
  | c :: rest =>
    if c = ch '[' then
      match rest.dropWhile isSeqAttributeChar with
      | [] => none
      | last :: left => some (c, last, left)
    else some (c, c, rest)

lemma length_ended {rest left : List UInt8} {first last : UInt8}
    (h : ended rest = some (first, last, left)) : left.length < rest.length := by
  cases rest with
  | nil => simp [ended] at h
  | cons c rest =>
    have hle : (rest.dropWhile isSeqAttributeChar).length ≤ rest.length :=
      (List.dropWhile_sublist _).length_le
    simp only [ended] at h
    split_ifs at h with hc
    · split at h
      · simp at h
      · rename_i e s hdrop
        simp only [Option.some.injEq, Prod.mk.injEq] at h
        simp only [hdrop, List.length_cons, h.2.2] at hle ⊢
        omega
    · simp only [Option.some.injEq, Prod.mk.injEq] at h
      simp [h.2.2]

/-- What comes behind each `\x1b` that `readNextUnbufferedEscapedSequence` finds -/
def escapes (firschar laschar : UInt8) : List UInt8 → List (List UInt8)
  | [] => []
  | c :: rest =>
    if c = esc then
      rest :: match _h : ended rest with
        | none => []
        | some (first, last, left) =>
          if last ≠ laschar ∨ first ≠ firschar then escapes firschar laschar left else []
    else escapes firschar laschar rest
  termination_by stdin => stdin.length
  decreasing_by
  · exact Nat.lt_succ_of_lt (length_ended _h)
  · exact Nat.lt_succ_self _

section

variable {firschar laschar : UInt8} {rest : List UInt8}

lemma escapes_none (h : ended rest = none) : escapes firschar laschar (esc :: rest) = [rest] := by
  rw [escapes, if_pos rfl]
  split
  · rfl
  · rename_i hsome
    exact nomatch h.symm.trans hsome

lemma escapes_some {first last : UInt8} {left : List UInt8} (h : ended rest = some (first, last, left)) :
    escapes firschar laschar (esc :: rest) =
      rest :: if last ≠ laschar ∨ first ≠ firschar then escapes firschar laschar left else [] := by
  rw [escapes, if_pos rfl]
  split
  · rename_i hnone
    exact nomatch h.symm.trans hnone
  · rename_i hsome
    have heq := Option.some.inj (hsome.symm.trans h)
    simp only [Prod.mk.injEq] at heq
    rw [heq.1, heq.2.1, heq.2.2]

end

/-! ## Writes -/

/-- All writes so far were to the buffer. -/
def Reader.InBounds (r : Reader) : Prop := ∀ i ∈ r.writes, i < bufferSize

section

variable {seqStart start buffer : ℕ} {r : Reader}

@[simp] lemma inBounds_put {i : ℕ} {c : UInt8} : (r.put i c).InBounds ↔ r.InBounds ∧ i < bufferSize := by
  simp [Reader.InBounds, Reader.put, or_imp, forall_and]

@[simp] lemma inBounds_mk {bufferedInput stdin : List UInt8} {memory : ℕ → UInt8} :
    Reader.InBounds ⟨bufferedInput, stdin, memory, r.writes⟩ ↔ r.InBounds := Iff.rfl

lemma inBounds_of_writes {r' : Reader} {n : ℕ} (h : r'.writes = r.writes ++ List.range' 1 n) :
    r'.InBounds ↔ r.InBounds ∧ n < bufferSize := by
  simp only [Reader.InBounds, h, List.mem_append, List.mem_range'_1, or_imp, forall_and]
  refine and_congr_right fun _ => ⟨fun hlt => ?_, fun hn i hi => by omega⟩
  cases n with
  | zero => decide
  | succ n => exact hlt (n + 1) (by omega)

lemma attributesStored_cons (c : UInt8) (rest : List UInt8) :
    attributesStored (c :: rest) =
      if isSeqAttributeChar c then attributesStored rest + 1 else 2 := by
  cases hc : isSeqAttributeChar c <;> simp [attributesStored, hc, Nat.add_right_comm]

lemma put_buffer_lt {i : ℕ} (h : i < buffer) (c : UInt8) :
    (r.put buffer c).buffer i = r.buffer i := Function.update_of_ne (Nat.ne_of_lt h) _ _

lemma unbufferedSequence_attribute {c : UInt8} (hc : isSeqAttributeChar c) (stdin : List UInt8)
    (hopen : r.buffer (seqStart + 1) = ch '[') (hlt : seqStart + 1 < buffer) :
    unbufferedSequence seqStart start (c :: stdin) buffer r =
      unbufferedSequence seqStart start stdin (buffer + 1) ({ r with stdin := stdin }.put buffer c) := by
  rw [unbufferedSequence]
  simp [put_buffer_lt hlt, hopen, hc]

lemma unbufferedSequence_last {c : UInt8} (hc : ¬ isSeqAttributeChar c) (stdin : List UInt8) :
    unbufferedSequence seqStart start (c :: stdin) buffer r =
      (some (buffer + 1 - start), ({ r with stdin := stdin }.put buffer c).put (buffer + 1) 0) := by
  rw [unbufferedSequence]
  simp [hc]

/-- The loop behind a bracket -/
lemma unbufferedSequence_writes (stdin : List UInt8) (hopen : r.buffer (seqStart + 1) = ch '[')
    (hlt : seqStart + 1 < buffer) :
    (unbufferedSequence seqStart start stdin buffer r).2.writes =
      r.writes ++ List.range' buffer (attributesStored stdin) := by
  induction stdin generalizing buffer r with
  | nil => simp [unbufferedSequence, attributesStored]
  | cons c stdin ih =>
    rw [attributesStored_cons]
    by_cases hc : isSeqAttributeChar c
    · have hkeep := (put_buffer_lt (r := { r with stdin := stdin }) hlt c).trans hopen
      rw [unbufferedSequence_attribute hc stdin hopen hlt, if_pos hc, List.range'_succ,
        ih hkeep (by omega)]
      simp [Reader.put]
    · rw [unbufferedSequence_last hc, if_neg hc]
      simp [Reader.put, List.range'_succ]

/-- The loop behind a bracket -/
lemma bufferedSequence_writes (bufferedInput : List UInt8)
    (hopen : r.buffer (seqStart + 1) = ch '[') (hlt : seqStart + 1 < buffer) :
    (bufferedSequence seqStart start bufferedInput buffer r).2.writes =
      r.writes ++ List.range' buffer (attributesStored (bufferedInput ++ r.stdin)) := by
  induction bufferedInput generalizing buffer r with
  | nil => exact unbufferedSequence_writes r.stdin hopen hlt
  | cons c bufferedInput ih =>
    have hkeep := (put_buffer_lt (r := { r with bufferedInput := bufferedInput }) hlt c).trans hopen
    rw [bufferedSequence, List.cons_append, attributesStored_cons]
    by_cases hc : isSeqAttributeChar c
    · simp only [hkeep, hc, ne_eq, not_true_eq_false, or_false, if_false, if_true]
      rw [ih hkeep (by omega), List.range'_succ]
      simp [Reader.put]
    · simp [hc, Reader.put, List.range'_succ]

lemma isSeqAttributeChar_open : isSeqAttributeChar (ch '[') = true := by decide

/-- The first step of the loop -/
lemma unbufferedSequence_open (stdin : List UInt8) :
    unbufferedSequence 0 1 (ch '[' :: stdin) 1 r =
      unbufferedSequence 0 1 stdin 2 ({ r with stdin := stdin }.put 1 (ch '[')) := by
  rw [unbufferedSequence]
  simp [Reader.put, isSeqAttributeChar_open]

lemma unbufferedSequence_plain {c : UInt8} (hc : c ≠ ch '[') (stdin : List UInt8) :
    unbufferedSequence 0 1 (c :: stdin) 1 r =
      (some 1, ({ r with stdin := stdin }.put 1 c).put 2 0) := by
  rw [unbufferedSequence]
  simp [Reader.put, hc]

/-- `readUnbufferedEscapedSequence` -/
lemma readUnbufferedEscapedSequence_writes (r : Reader) :
    (readUnbufferedEscapedSequence 0 1 r).2.writes =
      r.writes ++ List.range' 1 (stored r.stdin) := by
  unfold readUnbufferedEscapedSequence
  cases r.stdin with
  | nil => simp [unbufferedSequence, stored]
  | cons c stdin =>
    rw [stored]
    by_cases hc : c = ch '['
    · rw [if_pos hc, hc, unbufferedSequence_open, unbufferedSequence_writes _ (by simp [Reader.put])
        (by omega), List.range'_succ]
      simp [Reader.put]
    · rw [if_neg hc, unbufferedSequence_plain hc]
      simp [Reader.put, List.range'_succ]

/-- `readBufferedEscapedSequence` -/
lemma readBufferedEscapedSequence_writes (r : Reader) :
    (readBufferedEscapedSequence 0 1 r).2.writes =
      r.writes ++ List.range' 1 (stored (r.bufferedInput ++ r.stdin)) := by
  unfold readBufferedEscapedSequence
  cases r.bufferedInput with
  | nil => exact readUnbufferedEscapedSequence_writes r
  | cons c bufferedInput =>
    rw [bufferedSequence, List.cons_append, stored]
    by_cases hc : c = ch '['
    · simp only [hc, Reader.put, Function.update_self, isSeqAttributeChar_open, ne_eq,
        not_true_eq_false, or_false, if_false, if_true]
      rw [bufferedSequence_writes _ (by simp) (by omega), List.range'_succ]
      simp
    · simp [hc, Reader.put, List.range'_succ]

lemma readUnbufferedEscapedSequence_inBounds (r : Reader) :
    (readUnbufferedEscapedSequence 0 1 r).2.InBounds ↔ r.InBounds ∧ Short r.stdin :=
  inBounds_of_writes (readUnbufferedEscapedSequence_writes r)

lemma readBufferedEscapedSequence_inBounds (r : Reader) :
    (readBufferedEscapedSequence 0 1 r).2.InBounds ↔
      r.InBounds ∧ Short (r.bufferedInput ++ r.stdin) :=
  inBounds_of_writes (readBufferedEscapedSequence_writes r)

/-- A sequence whose `\x1b` was read from `stdin` -/
lemma unbuffered_inBounds (r : Reader) (bufferedInput stdin : List UInt8) :
    (behindEsc (readUnbufferedEscapedSequence 0 (0 + 1)
      (Reader.put ⟨bufferedInput, stdin, r.buffer, r.writes⟩ 0 esc))).2.InBounds ↔
      r.InBounds ∧ Short stdin := by
  rw [behindEsc, Nat.zero_add, readUnbufferedEscapedSequence_inBounds, inBounds_put]
  simp [Reader.put, bufferSize]

/-- A sequence whose `\x1b` was buffered -/
lemma buffered_inBounds (r : Reader) (bufferedInput stdin : List UInt8) :
    (behindEsc (readBufferedEscapedSequence 0 (0 + 1)
      (Reader.put ⟨bufferedInput, stdin, r.buffer, r.writes⟩ 0 esc))).2.InBounds ↔
      r.InBounds ∧ Short (bufferedInput ++ stdin) := by
  rw [behindEsc, Nat.zero_add, readBufferedEscapedSequence_inBounds, inBounds_put]
  simp [Reader.put, bufferSize]

/-! ## Characters -/

lemma length_le (c : UInt8) : Unicode.length c ≤ 4 := by
  unfold Unicode.length
  split_ifs <;> simp

lemma lt_bufferSize {i : ℕ} (h : i ≤ 4) : i < bufferSize := Nat.lt_of_le_of_lt h (by decide)

/-- What is left of a character is stored below index 5. -/
lemma unbufferedUtf8_inBounds {len : ℕ} (hlen : len ≤ 4) (hbuffer : buffer ≤ 4) (stdin : List UInt8) :
    (unbufferedUtf8 0 len stdin buffer r).2.InBounds ↔ r.InBounds := by
  induction stdin generalizing buffer r with
  | nil =>
    rw [unbufferedUtf8]
    split_ifs <;> simp [lt_bufferSize hbuffer]
  | cons c stdin ih =>
    rw [unbufferedUtf8]
    split_ifs with hmore
    · rw [ih (by omega), inBounds_put]
      simp [lt_bufferSize hbuffer]
    · simp [lt_bufferSize hbuffer]

lemma inBounds_prependBehind (data : List UInt8) (p : Option ℕ × Reader) :
    (prependBehind data p).2.InBounds ↔ p.2.InBounds := by
  rcases p with ⟨_ | _, _⟩ <;> rfl

lemma bufferedUtf8_inBounds {len : ℕ} (hlen : len ≤ 4) (hbuffer : buffer ≤ 4)
    (bufferedInput : List UInt8) :
    (bufferedUtf8 0 len bufferedInput buffer r).2.InBounds ↔
      r.InBounds ∧ ∀ rest, inside (len - buffer) bufferedInput r.stdin = some rest → Short rest := by
  induction bufferedInput generalizing buffer r with
  | nil =>
    rw [bufferedUtf8]
    split_ifs
    · simp [readUnbufferedUtf8Char, unbufferedUtf8_inBounds hlen hbuffer]
    · simp [lt_bufferSize hbuffer]
  | cons c bufferedInput ih =>
    rw [bufferedUtf8]
    by_cases hmore : buffer - 0 < len
    · have hleft : len - buffer = len - (buffer + 1) + 1 := by omega
      rw [if_pos hmore, hleft, inside]
      by_cases hesc : c = esc
      · simp only [if_pos hesc, inBounds_prependBehind]
        refine (buffered_inBounds (Reader.put { r with bufferedInput := bufferedInput } buffer c)
          bufferedInput r.stdin).trans ?_
        simp [lt_bufferSize hbuffer]
      · simp only [if_neg hesc]
        rw [ih (by omega), inBounds_put]
        simp [lt_bufferSize hbuffer, Reader.put]
    · have hdone : len - buffer = 0 := by omega
      rw [if_neg hmore, hdone]
      simp [lt_bufferSize hbuffer, inside]

lemma readBufferedUtf8Char_inBounds (r : Reader) :
    (readBufferedUtf8Char 0 r).2.InBounds ↔
      r.InBounds ∧ ∀ rest, escape true r.bufferedInput r.stdin = some rest → Short rest := by
  have hzero : 0 < bufferSize := by decide
  unfold readBufferedUtf8Char escape
  cases r.bufferedInput with
  | nil =>
    cases r.stdin with
    | nil => simp
    | cons c stdin =>
      by_cases hesc : c = esc
      · simp only [hesc, if_true, List.nil_append]
        refine (unbuffered_inBounds r [] stdin).trans ?_
        simp
      · simp only [hesc, if_false, if_true, List.nil_append, List.tail_nil, inside_nil]
        rw [readUnbufferedUtf8Char, unbufferedUtf8_inBounds (length_le c) (by omega), inBounds_put]
        simp [hzero]
  | cons c bufferedInput =>
    by_cases hesc : c = esc
    · simp only [hesc, if_true, List.cons_append]
      refine (buffered_inBounds r bufferedInput r.stdin).trans ?_
      simp
    · simp only [hesc, if_false, if_true, List.cons_append, List.tail_cons, Nat.zero_add]
      rw [bufferedUtf8_inBounds (length_le c) (by omega), inBounds_put]
      simp [hzero, Reader.put]

lemma readUnbufferedChar_inBounds (r : Reader) :
    (readUnbufferedChar 0 r).2.InBounds ↔
      r.InBounds ∧ ∀ rest, escape false [] r.stdin = some rest → Short rest := by
  have hzero : 0 < bufferSize := by decide
  have hone : 1 < bufferSize := by decide
  unfold readUnbufferedChar escape
  cases r.stdin with
  | nil => simp
  | cons c stdin =>
    by_cases hesc : c = esc
    · simp only [hesc, if_true, List.nil_append]
      refine (unbuffered_inBounds r r.bufferedInput stdin).trans ?_
      simp
    · simp [hesc, hzero, hone]

lemma readBufferedChar_inBounds (r : Reader) :
    (readBufferedChar 0 r).2.InBounds ↔
      r.InBounds ∧ ∀ rest, escape false r.bufferedInput r.stdin = some rest → Short rest := by
  have hzero : 0 < bufferSize := by decide
  have hone : 1 < bufferSize := by decide
  unfold readBufferedChar
  cases r.bufferedInput with
  | nil => exact readUnbufferedChar_inBounds r
  | cons c bufferedInput =>
    by_cases hesc : c = esc
    · simp only [hesc, if_true, escape, List.cons_append]
      refine (buffered_inBounds r bufferedInput r.stdin).trans ?_
      simp
    · simp [escape, hesc, hzero, hone]

/-- A key is read within the buffer exactly if the sequence that is read with it, if any, is short. -/
lemma readChar_inBounds (utf8 : Bool) (r : Reader) :
    (readChar utf8 0 r).2.InBounds ↔
      r.InBounds ∧ ∀ rest, escape utf8 r.bufferedInput r.stdin = some rest → Short rest := by
  cases utf8 with
  | true => exact readBufferedUtf8Char_inBounds r
  | false => exact readBufferedChar_inBounds r

/-! ## Sequences behind other bytes -/

/-- Behind a bracket, a sequence ends with the first byte that is no attribute character. -/
lemma unbufferedSequence_some {stdin left : List UInt8} {last : UInt8}
    (hopen : r.buffer (seqStart + 1) = ch '[') (hlt : seqStart + 1 < buffer)
    (hdrop : stdin.dropWhile isSeqAttributeChar = last :: left) :
    ∃ n, (unbufferedSequence seqStart start stdin buffer r).1 = some (n + 1 - start) ∧
      (unbufferedSequence seqStart start stdin buffer r).2.stdin = left ∧
      (unbufferedSequence seqStart start stdin buffer r).2.buffer n = last ∧
      (unbufferedSequence seqStart start stdin buffer r).2.buffer (seqStart + 1) = ch '[' := by
  induction stdin generalizing buffer r with
  | nil => simp at hdrop
  | cons c stdin ih =>
    by_cases hc : isSeqAttributeChar c
    · rw [List.dropWhile_cons_of_pos hc] at hdrop
      rw [unbufferedSequence_attribute hc stdin hopen hlt]
      exact ih ((put_buffer_lt hlt c).trans hopen) (by omega) hdrop
    · rw [List.dropWhile_cons_of_neg hc, List.cons.injEq] at hdrop
      rcases hdrop with ⟨rfl, rfl⟩
      rw [unbufferedSequence_last hc]
      refine ⟨buffer, rfl, rfl, ?_, ?_⟩
      · rw [put_buffer_lt (Nat.lt_succ_self buffer)]
        exact Function.update_self ..
      · rw [put_buffer_lt (by omega), put_buffer_lt hlt]
        exact hopen

lemma unbufferedSequence_none {stdin : List UInt8} (hopen : r.buffer (seqStart + 1) = ch '[')
    (hlt : seqStart + 1 < buffer) (hdrop : stdin.dropWhile isSeqAttributeChar = []) :
    (unbufferedSequence seqStart start stdin buffer r).1 = none := by
  induction stdin generalizing buffer r with
  | nil => rfl
  | cons c stdin ih =>
    by_cases hc : isSeqAttributeChar c
    · rw [List.dropWhile_cons_of_pos hc] at hdrop
      rw [unbufferedSequence_attribute hc stdin hopen hlt]
      exact ih ((put_buffer_lt hlt c).trans hopen) (by omega) hdrop
    · simp [List.dropWhile_cons_of_neg hc] at hdrop

/-- A sequence that ends: its length, what is left, its last and its first byte -/
lemma readUnbufferedEscapedSequence_some {first last : UInt8} {left : List UInt8}
    (h : ended r.stdin = some (first, last, left)) :
    ∃ n, (readUnbufferedEscapedSequence 0 1 r).1 = some n ∧
      (readUnbufferedEscapedSequence 0 1 r).2.stdin = left ∧
      (readUnbufferedEscapedSequence 0 1 r).2.buffer n = last ∧
      (readUnbufferedEscapedSequence 0 1 r).2.buffer 1 = first := by
  unfold readUnbufferedEscapedSequence
  cases hin : r.stdin with
  | nil => simp [hin, ended] at h
  | cons c stdin =>
    simp only [hin, ended] at h
    by_cases hc : c = ch '['
    · rw [hc, unbufferedSequence_open]
      rw [if_pos hc] at h
      split at h
      · exact nomatch h
      · rename_i hdrop
        simp only [Option.some.injEq, Prod.mk.injEq] at h
        rcases h with ⟨rfl, rfl, rfl⟩
        rw [hc]
        exact unbufferedSequence_some (by simp [Reader.put]) (by omega) hdrop
    · rw [unbufferedSequence_plain hc]
      simp only [if_neg hc, Option.some.injEq, Prod.mk.injEq] at h
      rcases h with ⟨rfl, rfl, rfl⟩
      refine ⟨1, rfl, rfl, ?_⟩
      simp [Reader.put]

lemma readUnbufferedEscapedSequence_none (h : ended r.stdin = none) :
    (readUnbufferedEscapedSequence 0 1 r).1 = none := by
  unfold readUnbufferedEscapedSequence
  cases hin : r.stdin with
  | nil => rfl
  | cons c stdin =>
    simp only [hin, ended] at h
    by_cases hc : c = ch '['
    · rw [hc, unbufferedSequence_open]
      rw [if_pos hc] at h
      split at h
      · rename_i hdrop
        exact unbufferedSequence_none (by simp [Reader.put]) (by omega) hdrop
      · exact nomatch h
    · exact nomatch (if_neg hc).symm.trans h

/-- A call that returns has read a sequence that ends. -/
lemma ended_of_some {r' : Reader} {len : ℕ}
    (h : behindEsc (readUnbufferedEscapedSequence 0 1 r) = (some len, r')) :
    ended r.stdin = some (r'.buffer 1, r'.buffer (len - 1), r'.stdin) := by
  simp only [behindEsc, Prod.mk.injEq, Option.map_eq_some_iff] at h
  rcases h with ⟨⟨n, hn, rfl⟩, rfl⟩
  cases hended : ended r.stdin with
  | none =>
    rw [readUnbufferedEscapedSequence_none hended] at hn
    exact nomatch hn
  | some e =>
    rcases readUnbufferedEscapedSequence_some hended with ⟨m, hm, hleft, hlast, hfirst⟩
    have hmn : m = n := Option.some.inj (hm.symm.trans hn)
    rw [hfirst, hleft, Nat.add_sub_cancel_left, ← hmn, hlast]

lemma ended_of_none {r' : Reader}
    (h : behindEsc (readUnbufferedEscapedSequence 0 1 r) = (none, r')) : ended r.stdin = none := by
  simp only [behindEsc, Prod.mk.injEq, Option.map_eq_none_iff] at h
  cases hended : ended r.stdin with
  | none => rfl
  | some e =>
    rcases readUnbufferedEscapedSequence_some hended with ⟨n, hn, _⟩
    exact nomatch h.1.symm.trans hn

/-- The next sequence is read within the buffer exactly if all sequences up to it are short. -/
lemma readNextUnbufferedEscapedSequence_inBounds (firschar laschar : UInt8) (r : Reader) :
    (readNextUnbufferedEscapedSequence 0 firschar laschar r).2.InBounds ↔
      r.InBounds ∧ ∀ rest ∈ escapes firschar laschar r.stdin, Short rest := by
  have hread : ∀ {r r' : Reader} {stdin : List UInt8} {len : Option ℕ},
      behindEsc (readUnbufferedEscapedSequence 0 (0 + 1)
        (({ r with stdin := stdin }.put 0 esc).put (0 + 1) 0)) = (len, r') →
      (r'.InBounds ↔ r.InBounds ∧ Short stdin) := by
    intro r r' stdin len h
    have hr' := congrArg Prod.snd h
    simp only [behindEsc, Nat.zero_add] at hr'
    rw [← hr', readUnbufferedEscapedSequence_inBounds, inBounds_put, inBounds_put]
    simp [Reader.put, bufferSize]
  fun_induction readNextUnbufferedEscapedSequence 0 firschar laschar r with
  | case1 r hin => simp [hin, escapes]
  | case2 r stdin r' hin hseq =>
    have hended : ended stdin = none := ended_of_none hseq
    rw [hin, escapes_none hended, hread hseq]
    simp
  | case3 r stdin len r' hother hin hseq ih =>
    have hended : ended stdin = some (r'.buffer 1, r'.buffer (len - 1), r'.stdin) :=
      ended_of_some hseq
    rw [Nat.zero_add, Nat.zero_add] at hother
    refine ih.trans ?_
    rw [inBounds_mk, hin, escapes_some hended, if_pos hother, hread hseq]
    simp [and_assoc]
  | case4 r stdin len r' hthis hin hseq =>
    have hended : ended stdin = some (r'.buffer 1, r'.buffer (len - 1), r'.stdin) :=
      ended_of_some hseq
    rw [Nat.zero_add, Nat.zero_add] at hthis
    rw [hin, escapes_some hended, if_neg hthis, hread hseq]
    simp
  | case5 r c stdin hin hesc ih =>
    refine ih.trans ?_
    rw [hin, escapes, if_neg hesc]
    simp

end

/-! ## The buffer -/

/-- **The buffer of a key, or of a reply of the terminal**, is not overrun exactly if the escape
    sequences that are read into it are short. -/
theorem writes_iff (bufferedInput stdin : List UInt8) (memory : ℕ → UInt8) :
    (∀ utf8 : Bool,
      (∀ i ∈ (readChar utf8 0 ⟨bufferedInput, stdin, memory, []⟩).2.writes, i < bufferSize) ↔
        ∀ rest, escape utf8 bufferedInput stdin = some rest → Short rest) ∧
    ∀ firschar laschar : UInt8,
      (∀ i ∈ (readNextUnbufferedEscapedSequence 0 firschar laschar
        ⟨bufferedInput, stdin, memory, []⟩).2.writes, i < bufferSize) ↔
        ∀ rest ∈ escapes firschar laschar stdin, Short rest := by
  constructor
  · intro utf8
    have hread := readChar_inBounds utf8 ⟨bufferedInput, stdin, memory, []⟩
    simpa [Reader.InBounds] using hread
  · intro firschar laschar
    have hread := readNextUnbufferedEscapedSequence_inBounds firschar laschar
      ⟨bufferedInput, stdin, memory, []⟩
    simpa [Reader.InBounds] using hread

/-- Behind `\x1b[` come 61 digits and a letter: the terminator is written behind the buffer. -/
theorem long_sequence :
    ¬ ∀ i ∈ (readChar true 0 ⟨[], esc :: ch '[' :: List.replicate 61 (ch '1') ++ [ch 'A'],
      fun _ => 0, []⟩).2.writes, i < bufferSize := by
  decide +kernel

end Nstd.Console
