import Nstd.Document.XmlBuffers

/-!
# Where escaping and unescaping write

Both functions write through `dest`, and nothing checks that it is in the buffer of the result.

* `Dest`, `Dest.put`, `Dest.copy`, `Dest.reserve` — the buffer, and for each byte that was written the
  offset and the capacity at that moment.
* `escapeTo`, `unescapeTo` — the loops.
* `Dest.Roomy` — what was written is inside, and there is room for as much as is still to be read.
* **`written_inside`** — all offsets are smaller than the capacities.
* `escapeWrites_text`, `unescapeWrites_text` — what is written is what the functions return.
-/

namespace Nstd.Xml

/-- A byte that was written: where, and how many bytes the buffer had room for -/
structure Written where
  offset : ℕ
  capacity : ℕ

/-- The buffer of the result, what is in front of `dest`, and what was written -/
structure Dest where
  capacity : ℕ
  text : List UInt8
  written : List Written

/-- `String result(capacity)`, and `dest` at its start -/
def Dest.new (capacity : ℕ) : Dest := ⟨capacity, [], []⟩

/-- `*(dest++) = c` -/
def Dest.put (d : Dest) (c : UInt8) : Dest :=
  ⟨d.capacity, d.text ++ [c], d.written ++ [⟨d.text.length, d.capacity⟩]⟩

/-- `Memory::copy(dest, bytes, length)` and `dest += length` -/
def Dest.copy (d : Dest) (bytes : List UInt8) : Dest := bytes.foldl Dest.put d

/-- `result.resize(dest - destStart)`, `result.reserve(size)` and `dest` behind what there is -/
def Dest.reserve (d : Dest) (size : ℕ) : Dest :=
  if max size d.text.length ≤ d.capacity then d
  else { d with capacity := max size d.text.length ||| 3 }

/-- The loop of `escapeString` -/
def escapeTo (d : Dest) : List UInt8 → Dest
  | [] => d
  | c :: s =>
    if c &&& 0xc0 ≠ 0 ∨ c &&& 0xe0 = 0 then escapeTo (d.put c) s
    else
      match escapes.find? (fun e => e.1 = c) with
      | some e =>
        let d := d.reserve (d.text.length + e.2.length + 1 + (c :: s).length)
        escapeTo (((d.put (ch '&')).copy e.2).put (ch ';')) s
      | none => escapeTo (d.put c) s

/-- `escapeString` -/
def escapeWrites (str : List UInt8) : Dest := escapeTo (Dest.new (str.length + 200)) str

/-- The loop of `unescapeString` -/
def unescapeTo (d : Dest) : List UInt8 → Dest
  | [] => d
  | c :: s =>
    if c ≠ ch '&' then unescapeTo (d.put c) s
    else unescapeTo (d.copy (translate s).1) (translate s).2
  termination_by s => s.length
  decreasing_by
    · exact Nat.lt_succ_self _
    · exact Nat.lt_succ_of_le (length_translate s).1

/-- `unescapeString`; `none` is the string itself. -/
def unescapeWrites (str : List UInt8) : Option Dest :=
  (findOneOf id [ch '&'] str).map fun src =>
    unescapeTo ((Dest.new str.length).copy (str.take (str.length - src.length))) src

/-! ## Room -/

/-- **What was written is inside**, and there is room for `n` more bytes. -/
structure Dest.Roomy (d : Dest) (n : ℕ) : Prop where
  inside : ∀ w ∈ d.written, w.offset < w.capacity
  room : d.text.length + n ≤ d.capacity

variable {d : Dest} {n : ℕ}

lemma Dest.Roomy.mono (h : d.Roomy n) {n' : ℕ} (hle : n' ≤ n) : d.Roomy n' := by
  have hroom := h.room
  exact ⟨h.inside, by omega⟩

lemma roomy_new (capacity : ℕ) {n : ℕ} (h : n ≤ capacity) : (Dest.new capacity).Roomy n := by
  refine ⟨?_, ?_⟩
  · simp [Dest.new]
  · rw [Dest.new, List.length_nil, Nat.zero_add]
    exact h

lemma Dest.Roomy.put (h : d.Roomy (n + 1)) (c : UInt8) : (d.put c).Roomy n := by
  have hroom := h.room
  refine ⟨fun w hw => ?_, ?_⟩
  · rcases List.mem_append.mp hw with hw | hw
    · exact h.inside w hw
    · rw [List.mem_singleton.mp hw]
      dsimp only
      omega
  · rw [Dest.put]
    dsimp only
    rw [List.length_append, List.length_singleton]
    omega

lemma Dest.Roomy.copy {bytes : List UInt8} (h : d.Roomy (bytes.length + n)) :
    (d.copy bytes).Roomy n := by
  induction bytes generalizing d with
  | nil => exact h.mono (Nat.le_add_left n _)
  | cons c bytes ih =>
    rw [List.length_cons, Nat.add_right_comm] at h
    exact ih (h.put c)

/-- As much was reserved as there is to write. -/
lemma Dest.Roomy.reserve {m : ℕ} (h : d.Roomy m) (n : ℕ) : (d.reserve (d.text.length + n)).Roomy n := by
  have hmax : max (d.text.length + n) d.text.length = d.text.length + n :=
    Nat.max_eq_left (Nat.le_add_right _ _)
  rw [Dest.reserve, hmax]
  split_ifs with hfits
  · exact ⟨h.inside, hfits⟩
  · exact ⟨h.inside, Nat.left_le_or⟩

/-- **Escaping** has room for the rest of the string after every byte that it reads. -/
lemma escapeTo_roomy {s : List UInt8} (h : d.Roomy s.length) : (escapeTo d s).Roomy 0 := by
  induction s generalizing d with
  | nil => exact h
  | cons c s ih =>
    rw [escapeTo]
    split_ifs
    · exact ih (h.put c)
    · cases hfind : escapes.find? (fun e => e.1 = c) with
      | none => exact ih (h.put c)
      | some e =>
        have hreserve := h.reserve (e.2.length + 1 + (c :: s).length)
        rw [← Nat.add_assoc, ← Nat.add_assoc] at hreserve
        have hle : e.2.length + (s.length + 1) + 1 ≤ e.2.length + 1 + (c :: s).length := by
          rw [List.length_cons]
          omega
        have hamp := (hreserve.mono hle).put (ch '&')
        exact ih ((hamp.copy).put (ch ';'))

/-- **Unescaping** writes no more than it reads. -/
lemma unescapeTo_roomy {s : List UInt8} (h : d.Roomy s.length) : (unescapeTo d s).Roomy 0 := by
  induction hn : s.length using Nat.strongRecOn generalizing s d with
  | _ n ih =>
    subst hn
    rcases s with - | ⟨c, s⟩
    · rw [unescapeTo]
      exact h
    rw [unescapeTo]
    split_ifs
    · exact ih s.length (Nat.lt_succ_self _) (h.put c) rfl
    · obtain ⟨hlt, hle⟩ := length_translate s
      exact ih _ (Nat.lt_succ_of_le hlt) (h.mono hle).copy rfl

/-- **No byte is written outside** the buffer of the result, by escaping or by unescaping. -/
theorem written_inside (s : CString) :
    (∀ w ∈ (escapeWrites s.bytes).written, w.offset < w.capacity)
      ∧ ∀ d ∈ unescapeWrites s.bytes, ∀ w ∈ d.written, w.offset < w.capacity := by
  refine ⟨(escapeTo_roomy (roomy_new _ (Nat.le_add_right _ _))).inside, fun d hd => ?_⟩
  obtain ⟨src, hfind, rfl⟩ := Option.map_eq_some_iff.mp hd
  refine (unescapeTo_roomy (Dest.Roomy.copy (roomy_new _ ?_))).inside
  have hlen := length_findOneOf hfind
  rw [List.length_take]
  omega

/-! ## What is written -/

lemma text_copy (d : Dest) (bytes : List UInt8) : (d.copy bytes).text = d.text ++ bytes := by
  induction bytes generalizing d with
  | nil => exact (List.append_nil _).symm
  | cons c bytes ih =>
    have hcopy : d.copy (c :: bytes) = (d.put c).copy bytes := rfl
    rw [hcopy, ih, Dest.put, List.append_assoc, List.singleton_append]

lemma text_reserve (d : Dest) (size : ℕ) : (d.reserve size).text = d.text := by
  rw [Dest.reserve]
  split_ifs <;> rfl

lemma text_escapeTo (s : List UInt8) (d : Dest) : (escapeTo d s).text = d.text ++ escapeString s := by
  induction s generalizing d with
  | nil => exact (List.append_nil _).symm
  | cons c s ih =>
    have hput : ∀ d : Dest, ∀ c, (escapeTo (d.put c) s).text = d.text ++ c :: escapeString s := by
      intro d c
      rw [ih, Dest.put, List.append_assoc, List.singleton_append]
    rw [escapeTo, escapeString, List.flatMap_cons, escapeByte, ← escapeString]
    split_ifs
    · exact hput d c
    · cases escapes.find? (fun e => e.1 = c) with
      | none => exact hput d c
      | some e =>
        dsimp only
        rw [hput, text_copy, Dest.put, text_reserve]
        simp

lemma text_unescapeTo (s : List UInt8) (d : Dest) :
    (unescapeTo d s).text = d.text ++ unescapeString s := by
  induction hn : s.length using Nat.strongRecOn generalizing s d with
  | _ n ih =>
    subst hn
    rcases s with - | ⟨c, s⟩
    · rw [unescapeTo, unescapeString, List.append_nil]
    rw [unescapeTo]
    split_ifs with hc
    · rw [ih s.length (Nat.lt_succ_self _) s _ rfl, unescapeString_plain hc, Dest.put,
        List.append_assoc, List.singleton_append]
    · rw [not_not.mp hc, unescapeString_ampersand,
        ih _ (Nat.lt_succ_of_le (length_translate s).1) _ _ rfl, text_copy, List.append_assoc]

/-- **What `escapeString` has written** is what it returns. -/
theorem escapeWrites_text (s : List UInt8) : (escapeWrites s).text = escapeString s :=
  text_escapeTo s _

/-- **What `unescapeString` has written** is what it returns; it returns the string itself when there
    is nothing to unescape. -/
theorem unescapeWrites_text (s : List UInt8) :
    ((unescapeWrites s).map Dest.text).getD s = unescapeString s := by
  rw [unescapeWrites]
  rcases findOneOf_cases [ch '&'] s with ⟨p, e, c, rfl, hp, -, hfind⟩ | ⟨hnone, hplain⟩
  · have htake : (p ++ c :: e).take ((p ++ c :: e).length - (c :: e).length) = p := by
      rw [List.length_append, Nat.add_sub_cancel, List.take_left]
    rw [hfind, Option.map_some, Option.map_some, Option.getD_some, htake, text_unescapeTo, text_copy,
      unescapeString_append fun hmem => hp _ hmem List.mem_cons_self]
    rfl
  · have h := unescapeString_append (fun hmem => hplain _ hmem List.mem_cons_self) []
    rw [List.append_nil, unescapeString, List.append_nil] at h
    rw [hnone, h]
    rfl

end Nstd.Xml
