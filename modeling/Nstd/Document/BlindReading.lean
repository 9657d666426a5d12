import Mathlib.Data.List.Infix
import Mathlib.Tactic.Common
import Mathlib.Tactic.SplitIfs
import Nstd.Document.StripComments

/-!
# How `Json::stripComments` reads a text

The scanner leaves the inside of a literal at the first backslash.  Said of the text alone, it
reads as if a literal ended there:

* `tags` — this reading, one tag for each byte.
* `strip_eq` — the machine copies the bytes that `tags` does not drop.
* `plain_before_comment`, `byte_of_kept` — a comment so read begins with a slash that is dropped,
  and keeps line breaks and stars only.
-/

namespace Nstd.Json

/-- What the scanner sees in a byte: no comment, or a comment with the byte kept or dropped -/
inductive Tag
  | plain
  | kept
  | dropped
  deriving DecidableEq, Repr

/-- Where the reading is: `opening` and `closing` are inside the two bytes that open or close a
    block comment. -/
inductive Reading
  | outside
  | literal
  | line
  | opening
  | block
  | closing
  deriving DecidableEq

/-- The tags of a text, read as if a backslash ended a literal -/
def tags : Reading → List UInt8 → List Tag
  | _, [] => []
  | .outside, c :: s =>
    if c = ch '/' ∧ s.head? = some (ch '/') then .dropped :: tags .line s
    else if c = ch '/' ∧ s.head? = some (ch '*') then .dropped :: tags .opening s
    else if c = ch '"' then .plain :: tags .literal s
    else .plain :: tags .outside s
  | .literal, c :: s =>
    if c = ch '\\' ∨ c = ch '"' then .plain :: tags .outside s else .plain :: tags .literal s
  | .line, c :: s =>
    if c = ch '\r' ∨ c = ch '\n' then .plain :: tags .outside s else .dropped :: tags .line s
  | .opening, _ :: s => .dropped :: tags .block s
  | .block, c :: s =>
    if c = ch '*' ∧ s.head? = some (ch '/') then .dropped :: tags .closing s
    else if c = ch '\r' ∨ c = ch '\n' ∨ c = ch '*' then .kept :: tags .block s
    else .dropped :: tags .block s
  | .closing, _ :: s => .dropped :: tags .outside s

/-- Is a byte in a comment, when the text is read as if a backslash ended a literal? -/
def blindComments (s : List UInt8) : List Bool := (tags .outside s).map fun t => t ≠ .plain

/-- The elements whose tag is not `dropped` -/
def keep {α : Type} : List α → List Tag → List α
  | a :: s, t :: ts => if t = .dropped then keep s ts else a :: keep s ts
  | _, _ => []

@[simp] lemma tags_nil (r : Reading) : tags r [] = [] := by cases r <;> rfl

lemma tags_length (r : Reading) (s : List UInt8) : (tags r s).length = s.length := by
  induction s generalizing r with
  | nil => rw [tags_nil]; rfl
  | cons c s ih => cases r <;> grind [tags]

section Machine

variable {α : Type} (byte : α → UInt8)

@[simp] lemma keep_nil (ts : List Tag) : keep ([] : List α) ts = [] := by cases ts <;> rfl

@[simp] lemma keep_plain (a : α) (s : List α) (ts : List Tag) :
    keep (a :: s) (.plain :: ts) = a :: keep s ts := rfl

@[simp] lemma keep_kept (a : α) (s : List α) (ts : List Tag) :
    keep (a :: s) (.kept :: ts) = a :: keep s ts := rfl

@[simp] lemma keep_dropped (a : α) (s : List α) (ts : List Tag) :
    keep (a :: s) (.dropped :: ts) = keep s ts := rfl

/-! ## The machine -/

/-- The search for the end of a line comment -/
lemma keep_line (s : List α) : keep s (tags .line (s.map byte)) =
    match findOneOf byte [ch '\r', ch '\n'] s with
    | some e => keep e (tags .outside (e.map byte))
    | none => [] := by
  induction s with
  | nil => rfl
  | cons c s ih =>
    rw [List.map_cons, findOneOf]
    by_cases hc : byte c = ch '\r' ∨ byte c = ch '\n'
    · have hslash : byte c ≠ ch '/' := by rcases hc with hc | hc <;> rw [hc] <;> decide
      have hquote : byte c ≠ ch '"' := by rcases hc with hc | hc <;> rw [hc] <;> decide
      rw [if_pos (by simpa using hc)]
      simp [tags, hc, hslash, hquote]
    · rw [if_neg (by simpa using hc), ← ih]
      simp [tags, hc]

/-- The search of the loop of a block comment -/
lemma keep_block (s : List α) : keep s (tags .block (s.map byte)) =
    match findOneOf byte [ch '\r', ch '\n', ch '*'] s with
    | none => []
    | some [] => []
    | some (c :: e) =>
      if byte c = ch '*' ∧ e.head?.map byte = some (ch '/') then
        keep e.tail (tags .outside (e.tail.map byte))
      else c :: keep e (tags .block (e.map byte)) := by
  induction s with
  | nil => rfl
  | cons c s ih =>
    rw [List.map_cons, findOneOf]
    by_cases hc : byte c = ch '\r' ∨ byte c = ch '\n' ∨ byte c = ch '*'
    · rw [if_pos (by simpa using hc)]
      by_cases hclose : byte c = ch '*' ∧ s.head?.map byte = some (ch '/')
      · cases s with
        | nil => exact absurd hclose.2 (by simp)
        | cons d s =>
          have hd : byte d = ch '/' := by simpa using hclose.2
          simp [tags, keep, hclose.1, hd]
      · have hclose' : ¬ (byte c = ch '*' ∧ (s.map byte).head? = some (ch '/')) := by
          rwa [List.head?_map]
        simp only [if_neg hclose]
        rw [tags, if_neg hclose', if_pos hc, keep, if_neg (by decide)]
    · rw [if_neg (by simpa using hc), ← ih, tags, if_neg fun h => hc (Or.inr (Or.inr h.1)),
        if_neg hc, keep, if_pos rfl]

/-- The reading that goes with a program point -/
def StripPoint.reading : StripPoint → Reading
  | .checkStr => .outside
  | .blockComment => .block
  | .literal => .literal

/-- **The machine** copies what the reading does not drop, given as many jumps as there are
    bytes, and one. -/
theorem strip_eq {n : ℕ} {pt : StripPoint} {s : List α} (hn : s.length < n) :
    strip byte n pt s = keep s (tags pt.reading (s.map byte)) := by
  induction n generalizing pt s with
  | zero => exact absurd hn (by simp)
  | succ n ih =>
    cases pt with
    | checkStr =>
      cases s with
      | nil => rfl
      | cons c s =>
        have hs : s.length < n := Nat.lt_of_succ_lt_succ hn
        rw [strip, StripPoint.reading, List.map_cons, tags, List.head?_map]
        by_cases hline : byte c = ch '/' ∧ s.head?.map byte = some (ch '/')
        · have hc : ¬ byte c ∈ [ch '\r', ch '\n'] := by rw [hline.1]; decide
          rw [if_pos hline, if_pos hline, findOneOf, if_neg hc, keep_dropped, keep_line]
          cases hfind : findOneOf byte [ch '\r', ch '\n'] s with
          | none => rfl
          | some e => exact ih ((length_findOneOf hfind).trans_lt hs)
        · rw [if_neg hline, if_neg hline]
          by_cases hblock : byte c = ch '/' ∧ s.head?.map byte = some (ch '*')
          · rw [if_pos hblock, if_pos hblock]
            cases s with
            | nil => exact absurd hblock.2 (by simp)
            | cons d s =>
              rw [List.tail_cons, ih (Nat.lt_of_succ_lt hs), List.map_cons, tags,
                keep_dropped, keep_dropped]
              rfl
          · rw [if_neg hblock, if_neg hblock]
            by_cases hquote : byte c = ch '"'
            · rw [if_neg (not_not.mpr hquote), if_pos hquote, keep_plain, ih hs]
              rfl
            · rw [if_pos hquote, if_neg hquote, keep_plain, ih hs]
              rfl
    | blockComment =>
      rw [strip, StripPoint.reading, keep_block]
      cases hfind : findOneOf byte [ch '\r', ch '\n', ch '*'] s with
      | none => rfl
      | some e =>
        cases e with
        | nil => rfl
        | cons c e =>
          have he : e.length < n :=
            Nat.lt_of_succ_lt_succ ((length_findOneOf hfind).trans_lt hn)
          simp only
          split_ifs
          · refine ih (lt_of_le_of_lt ?_ he)
            rw [List.length_tail]
            exact Nat.sub_le _ _
          · rw [ih he]
            rfl
    | literal =>
      cases s with
      | nil => cases n <;> rfl
      | cons c s =>
        have hs : s.length < n := Nat.lt_of_succ_lt_succ hn
        rw [strip, StripPoint.reading, List.map_cons, tags]
        by_cases hesc : byte c = ch '\\'
        · rw [if_pos (Or.inl hesc), keep_plain]
          by_cases hnil : s = []
          · have hquote : byte c ≠ ch '"' := by rw [hesc]; decide
            rw [if_neg fun h => h.2 hnil, if_neg hquote, ih hs, hnil]
            rfl
          · rw [if_pos ⟨hesc, hnil⟩, ih hs]
            rfl
        · rw [if_neg fun h => hesc h.1]
          by_cases hquote : byte c = ch '"'
          · rw [if_pos hquote, if_pos (Or.inr hquote), keep_plain, ih hs]
            rfl
          · rw [if_neg hquote, if_neg (by simp [hesc, hquote]), keep_plain, ih hs]
            rfl

end Machine

lemma stripComments_eq (data : List UInt8) : stripComments data = keep data (tags .outside data) := by
  rw [stripComments, strip_eq id (Nat.lt_succ_self _), List.map_id]
  rfl

/-! ## Tags and positions -/

lemma keep_map {α β : Type} (f : α → β) (s : List α) (ts : List Tag) :
    (keep s ts).map f = keep (s.map f) ts := by
  induction s generalizing ts with
  | nil => simp
  | cons a s ih =>
    cases ts with
    | nil => rfl
    | cons t ts => cases t <;> simp [ih]

lemma keep_of_plain {α : Type} {s : List α} {ts : List Tag} (hlen : ts.length = s.length)
    (h : ∀ t ∈ ts, t = .plain) : keep s ts = s := by
  induction s generalizing ts with
  | nil => simp
  | cons a s ih =>
    cases ts with
    | nil => exact absurd hlen (by simp)
    | cons t ts =>
      obtain rfl : t = .plain := h t List.mem_cons_self
      rw [keep_plain, ih (by simpa using hlen) fun t' ht' => h t' (List.mem_cons_of_mem _ ht')]

lemma copiedPositions_eq (data : List UInt8) :
    copiedPositions data = keep (List.range data.length) (tags .outside data) := by
  rw [copiedPositions, strip_eq Prod.fst (by simp), keep_map, List.zipIdx_map_fst,
    List.zipIdx_map_snd, List.range_eq_range']
  rfl

/-- A position is copied if its tag is not `dropped`. -/
lemma mem_copiedPositions {data : List UInt8} {i : ℕ} : i ∈ copiedPositions data ↔
    ∃ t, (tags .outside data)[i]? = some t ∧ t ≠ .dropped := by
  have hmem : ∀ (ts : List Tag) (k : ℕ), i ∈ keep (List.range' k ts.length) ts ↔
      ∃ j t, i = k + j ∧ ts[j]? = some t ∧ t ≠ .dropped := by
    intro ts
    induction ts with
    | nil => intro k; simp
    | cons t ts ih =>
      intro k
      rw [List.length_cons, List.range'_succ]
      constructor
      · intro hi
        have hcase : (i = k ∧ t ≠ .dropped) ∨ i ∈ keep (List.range' (k + 1) ts.length) ts := by
          cases t <;> simpa using hi
        rcases hcase with ⟨rfl, ht⟩ | hi
        · exact ⟨0, t, rfl, rfl, ht⟩
        · obtain ⟨j, t', rfl, hj, ht'⟩ := (ih (k + 1)).mp hi
          exact ⟨j + 1, t', by omega, by simpa using hj, ht'⟩
      · rintro ⟨j, t', rfl, hj, ht'⟩
        cases j with
        | zero =>
          obtain rfl : t = t' := by simpa using hj
          cases t <;> simp at ht' ⊢
        | succ j =>
          have hrest : k + (j + 1) ∈ keep (List.range' (k + 1) ts.length) ts :=
            (ih (k + 1)).mpr ⟨j, t', by omega, by simpa using hj, ht'⟩
          cases t <;> simp [hrest]
  rw [copiedPositions_eq, List.range_eq_range', ← tags_length .outside data, hmem]
  simp

/-- The result is the bytes at the copied positions, in their order. -/
theorem stripComments_positions (data : List UInt8) :
    stripComments data = (copiedPositions data).filterMap fun i => data[i]? := by
  have hkeep : ∀ (s : List UInt8) (ts : List Tag) (k : ℕ), (∀ j, s[j]? = data[k + j]?) →
      keep s ts = (keep (List.range' k s.length) ts).filterMap fun i => data[i]? := by
    intro s
    induction s with
    | nil => intro ts k _; simp
    | cons c s ih =>
      intro ts k hs
      have hc : data[k]? = some c := by simpa using (hs 0).symm
      have hrest : ∀ j, s[j]? = data[k + 1 + j]? := by
        intro j
        simpa [Nat.add_comm, Nat.add_left_comm] using hs (j + 1)
      rw [List.length_cons, List.range'_succ]
      cases ts with
      | nil => rfl
      | cons t ts => cases t <;> simp [hc, ih ts (k + 1) hrest]
  rw [stripComments_eq, copiedPositions_eq, List.range_eq_range']
  exact hkeep data _ 0 fun j => by rw [Nat.zero_add]

/-! ## Where comments begin -/

/-- Inside the two bytes that open or close a block comment the second one is what it must be. -/
def Reading.Fits : Reading → List UInt8 → Prop
  | .opening, s => s.head? = some (ch '*')
  | .closing, s => s.head? = some (ch '/')
  | _, _ => True

/-- **One byte** of the reading: a comment begins with a slash that is dropped, and the bytes of a
    comment that are kept are line breaks and stars; no line break is dropped. -/
lemma tags_cons {r : Reading} {c : UInt8} {s : List UInt8} (h : r.Fits (c :: s)) :
    ∃ t r', tags r (c :: s) = t :: tags r' s ∧ r'.Fits s ∧
      (t = .plain → r' = .outside ∨ r' = .literal) ∧
      (r = .outside ∨ r = .literal → t ≠ .plain → t = .dropped ∧ c = ch '/') ∧
      (t = .kept → c = ch '\r' ∨ c = ch '\n' ∨ c = ch '*') ∧
      (t = .dropped → c ≠ ch '\r' ∧ c ≠ ch '\n') := by
  cases r with
  | outside =>
    rw [tags]
    split_ifs with hline hblock hquote
    · exact ⟨_, _, rfl, trivial, by simp, by simp [hline.1], by simp, by rw [hline.1]; decide⟩
    · exact ⟨_, _, rfl, hblock.2, by simp, by simp [hblock.1], by simp, by rw [hblock.1]; decide⟩
    · exact ⟨_, _, rfl, trivial, by simp, by simp, by simp, by simp⟩
    · exact ⟨_, _, rfl, trivial, by simp, by simp, by simp, by simp⟩
  | literal =>
    rw [tags]
    split_ifs
    · exact ⟨_, _, rfl, trivial, by simp, by simp, by simp, by simp⟩
    · exact ⟨_, _, rfl, trivial, by simp, by simp, by simp, by simp⟩
  | line =>
    rw [tags]
    split_ifs with hc
    · exact ⟨_, _, rfl, trivial, by simp, by simp, by simp, by simp⟩
    · exact ⟨_, _, rfl, trivial, by simp, by simp, by simp, by simpa using hc⟩
  | opening =>
    have hc : c = ch '*' := by simpa [Reading.Fits] using h
    exact ⟨_, _, rfl, trivial, by simp, by simp, by simp, by rw [hc]; decide⟩
  | block =>
    rw [tags]
    split_ifs with hclose hc
    · exact ⟨_, _, rfl, hclose.2, by simp, by simp, by simp, by rw [hclose.1]; decide⟩
    · exact ⟨_, _, rfl, trivial, by simp, by simp, by simpa using hc, by simp⟩
    · exact ⟨_, _, rfl, trivial, by simp, by simp, by simp, by simp only [not_or] at hc; simp [hc]⟩
  | closing =>
    have hc : c = ch '/' := by simpa [Reading.Fits] using h
    exact ⟨_, _, rfl, trivial, by simp, by simp, by simp, by rw [hc]; decide⟩

/-- A byte of a comment after one that is none is the slash that begins the comment. -/
lemma begins_after_plain {r : Reading} {s : List UInt8} (h : r.Fits s) {i : ℕ} {t : Tag}
    (hi : (tags r s)[i]? = some .plain) (hnext : (tags r s)[i + 1]? = some t) (ht : t ≠ .plain) :
    t = .dropped ∧ s[i + 1]? = some (ch '/') := by
  induction s generalizing r i with
  | nil => simp at hi
  | cons c s ih =>
    obtain ⟨t₀, r', heq, hfits, hplain, -, -, -⟩ := tags_cons h
    rw [heq] at hi hnext
    rw [List.getElem?_cons_succ] at hnext ⊢
    cases i with
    | zero =>
      have hr' := hplain (by simpa using hi)
      cases s with
      | nil => simp at hnext
      | cons d s =>
        obtain ⟨t₁, r'', heq', -, -, hbegin, -, -⟩ := tags_cons hfits
        rw [heq'] at hnext
        obtain rfl : t₁ = t := by simpa using hnext
        simpa using hbegin hr' ht
    | succ i => exact ih hfits (by simpa using hi) (by simpa using hnext)

/-- The bytes of a comment that are kept are line breaks and stars. -/
lemma byte_of_kept {r : Reading} {s : List UInt8} (h : r.Fits s) {i : ℕ}
    (hi : (tags r s)[i]? = some .kept) :
    ∃ c, s[i]? = some c ∧ (c = ch '\r' ∨ c = ch '\n' ∨ c = ch '*') := by
  induction s generalizing r i with
  | nil => simp at hi
  | cons c s ih =>
    obtain ⟨t, r', heq, hfits, -, -, hkept, -⟩ := tags_cons h
    rw [heq] at hi
    cases i with
    | zero => exact ⟨c, rfl, hkept (by simpa using hi)⟩
    | succ i => exact ih hfits (by simpa using hi)

/-- A comment anywhere has a slash that begins one at or before that place. -/
lemma begins_before {s : List UInt8} {i : ℕ} {t : Tag} (hi : (tags .outside s)[i]? = some t)
    (ht : t ≠ .plain) : ∃ j : ℕ, (tags .outside s)[j]? = some Tag.dropped ∧ s[j]? = some (ch '/') := by
  induction i generalizing t with
  | zero =>
    cases s with
    | nil => simp at hi
    | cons c s =>
      obtain ⟨t₀, r', heq, -, -, hbegin, -, -⟩ := @tags_cons .outside c s trivial
      rw [heq] at hi
      obtain rfl : t₀ = t := by simpa using hi
      obtain ⟨hd, hc⟩ := hbegin (Or.inl rfl) ht
      exact ⟨0, by rw [heq, hd]; rfl, by rw [hc]; rfl⟩
  | succ i ih =>
    have hlt : i < (tags .outside s).length :=
      Nat.lt_of_succ_lt (List.getElem?_eq_some_iff.mp hi).1
    have hprev : (tags .outside s)[i]? = some ((tags .outside s)[i]) := List.getElem?_eq_getElem hlt
    by_cases hp : (tags .outside s)[i] = .plain
    · obtain ⟨hd, hc⟩ := @begins_after_plain .outside s trivial i t (by rw [hprev, hp]) hi ht
      exact ⟨i + 1, by rw [hi, hd], hc⟩
    · exact ih hprev hp

end Nstd.Json
