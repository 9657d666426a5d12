import Nstd.Document.XmlEscape

/-!
# The buffers of escaping and unescaping

`escapeString` and `unescapeString` write through a pointer into the buffer of their result.

* `Buffer`, `Buffer.write`, `Buffer.reserve` — a buffer holds at most as many bytes as it has room for.
* `escapeInto`, `unescapeInto` — the functions with their buffers; a byte that is written behind the
  end of one makes them fail.
* `escapeInto_eq`, `unescapeInto_eq` — none is.
* **`unescape_escaped`** — unescaping undoes escaping, and what has been escaped has special characters
  in references only.
-/

namespace Nstd.Xml

/-! ## Buffers -/

/-- The buffer of a string, and what is in front of `dest` -/
structure Buffer where
  capacity : ℕ
  text : List UInt8
  fits : text.length ≤ capacity

/-- `String result(capacity)` -/
def Buffer.empty (capacity : ℕ) : Buffer := ⟨capacity, [], Nat.zero_le capacity⟩

/-- Some bytes are written to `dest`. -/
def Buffer.write (b : Buffer) (bytes : List UInt8) : Option Buffer :=
  if fits : (b.text ++ bytes).length ≤ b.capacity then some ⟨b.capacity, b.text ++ bytes, fits⟩
  else none

/-- `result.resize(dest - destStart)` and `result.reserve(size)` -/
def Buffer.reserve (b : Buffer) (size : ℕ) : Buffer :=
  ⟨if size ≤ b.capacity then b.capacity else max size b.text.length ||| 3, b.text, by
    split_ifs
    · exact b.fits
    · exact Nat.le_trans (Nat.le_max_right size b.text.length) Nat.left_le_or⟩

lemma Buffer.write_eq {b : Buffer} {bytes : List UInt8} (h : b.text.length + bytes.length ≤ b.capacity) :
    ∃ b', b.write bytes = some b' ∧ b'.text = b.text ++ bytes ∧ b'.capacity = b.capacity :=
  ⟨_, dif_pos (List.length_append ▸ h), rfl, rfl⟩

lemma Buffer.le_reserve (b : Buffer) (size : ℕ) : size ≤ (b.reserve size).capacity := by
  rw [Buffer.reserve]
  split_ifs with h
  · exact h
  · exact Nat.le_trans (Nat.le_max_left size b.text.length) Nat.left_le_or

/-! ## Escaping -/

/-- A reference is written, the rest of the string being `rest`. -/
def writeReference (b : Buffer) (name rest : List UInt8) : Option Buffer := do
  let b := b.reserve (b.text.length + name.length + 1 + rest.length)
  let b ← b.write [ch '&']
  let b ← b.write name
  b.write [ch ';']

/-- The loop of `escapeString` -/
def escapeLoop (b : Buffer) : List UInt8 → Option Buffer
  | [] => some b
  | c :: s =>
    if c &&& 0xc0 ≠ 0 ∨ c &&& 0xe0 = 0 then (b.write [c]).bind fun b => escapeLoop b s
    else
      match escapes.find? (fun e => e.1 = c) with
      | some e => (writeReference b e.2 (c :: s)).bind fun b => escapeLoop b s
      | none => (b.write [c]).bind fun b => escapeLoop b s

/-- `escapeString` -/
def escapeInto (str : List UInt8) : Option (List UInt8) :=
  (escapeLoop (Buffer.empty (str.length + 200)) str).map Buffer.text

lemma writeReference_eq (b : Buffer) (name rest : List UInt8) (hrest : rest ≠ []) :
    ∃ b', writeReference b name rest = some b' ∧ b'.text = b.text ++ ch '&' :: (name ++ [ch ';']) ∧
      b.text.length + name.length + 1 + rest.length ≤ b'.capacity := by
  have hpos := List.length_pos_iff.mpr hrest
  have hroom := b.le_reserve (b.text.length + name.length + 1 + rest.length)
  have htext : (b.reserve (b.text.length + name.length + 1 + rest.length)).text = b.text := rfl
  rw [writeReference]
  generalize b.reserve (b.text.length + name.length + 1 + rest.length) = b₀ at hroom htext ⊢
  obtain ⟨b₁, h₁, htext₁, hcapacity₁⟩ := @Buffer.write_eq b₀ [ch '&'] (by
    rw [htext, List.length_singleton]
    omega)
  obtain ⟨b₂, h₂, htext₂, hcapacity₂⟩ := @Buffer.write_eq b₁ name (by
    rw [htext₁, htext, List.length_append, List.length_singleton]
    omega)
  obtain ⟨b₃, h₃, htext₃, hcapacity₃⟩ := @Buffer.write_eq b₂ [ch ';'] (by
    rw [htext₂, htext₁, htext, List.length_append, List.length_append, List.length_singleton,
      List.length_singleton]
    omega)
  refine ⟨b₃, by simp [h₁, h₂, h₃], ?_, by omega⟩
  rw [htext₃, htext₂, htext₁, htext]
  simp

/-- **No byte is written** behind the end, as there is always room for the rest of the string. -/
lemma escapeLoop_eq (s : List UInt8) : ∀ b : Buffer, b.text.length + s.length ≤ b.capacity →
    ∃ b', escapeLoop b s = some b' ∧ b'.text = b.text ++ escapeString s := by
  induction s with
  | nil => exact fun b _ => ⟨b, rfl, (List.append_nil _).symm⟩
  | cons c s ih =>
    intro b hroom
    rw [List.length_cons] at hroom
    have hplain : ∃ b', ((b.write [c]).bind fun b => escapeLoop b s) = some b' ∧
        b'.text = b.text ++ c :: escapeString s := by
      obtain ⟨b₁, h₁, htext₁, hcapacity₁⟩ := @Buffer.write_eq b [c] (by
        rw [List.length_singleton]
        omega)
      obtain ⟨b₂, h₂, htext₂⟩ := ih b₁ (by
        rw [htext₁, hcapacity₁, List.length_append, List.length_singleton]
        omega)
      exact ⟨b₂, by rw [h₁]; exact h₂, by rw [htext₂, htext₁, List.append_assoc]; rfl⟩
    rw [escapeLoop, escapeString, List.flatMap_cons, escapeByte]
    split_ifs
    · exact hplain
    · cases hfind : escapes.find? (fun e => e.1 = c) with
      | none => exact hplain
      | some e =>
        obtain ⟨b₁, h₁, htext₁, hcapacity₁⟩ :=
          writeReference_eq b e.2 (c :: s) (List.cons_ne_nil c s)
        obtain ⟨b₂, h₂, htext₂⟩ := ih b₁ (by
          rw [htext₁]
          simp only [List.length_append, List.length_cons, List.length_nil] at hcapacity₁ ⊢
          omega)
        refine ⟨b₂, by simp only [h₁]; exact h₂, ?_⟩
        rw [htext₂, htext₁, List.append_assoc]
        rfl

theorem escapeInto_eq (s : List UInt8) : escapeInto s = some (escapeString s) := by
  have hroom : 0 + s.length ≤ s.length + 200 := by omega
  obtain ⟨b, h, htext⟩ := escapeLoop_eq s (Buffer.empty (s.length + 200)) hroom
  rw [escapeInto, h]
  exact congrArg some htext

/-! ## Unescaping -/

/-- What is written at an ampersand in front of `s`, and where the loop goes on -/
def translate (s : List UInt8) : List UInt8 × List UInt8 :=
  match findOneOf id [ch ';'] s with
  | none => ([ch '&'], s)
  | some sequenceEnd =>
    match reference (s.take (s.length - sequenceEnd.length)) with
    | none => ([ch '&'], s)
    | some value => (value, sequenceEnd.tail)

/-- What a reference stands for is not longer than the reference, with its ampersand and semicolon. -/
lemma length_reference {str value : List UInt8} (h : reference str = some value) :
    value.length ≤ str.length + 2 := by
  cases str with
  | nil => exact absurd h (Option.some_ne_none _).symm
  | cons c s =>
    rw [reference] at h
    split_ifs at h with hc
    · obtain ⟨n, hscan, rfl⟩ := Option.map_eq_some_iff.mp h
      have hdigit : s ≠ [] := by
        rintro rfl
        exact absurd hscan (Option.some_ne_none _).symm
      have hpos := List.length_pos_iff.mpr hdigit
      have hbytes : (Unicode.append n).length ≤ 4 := by
        rw [Unicode.append]
        split_ifs <;> simp
      rw [List.length_cons]
      omega
    · obtain ⟨e, -, rfl⟩ := Option.map_eq_some_iff.mp h
      simp

/-- No more is written than is read. -/
lemma length_translate (s : List UInt8) : (translate s).2.length ≤ s.length ∧
    (translate s).1.length + (translate s).2.length ≤ s.length + 1 := by
  have hone : [ch '&'].length + s.length ≤ s.length + 1 := by
    rw [List.length_singleton, Nat.add_comm]
  rw [translate]
  split
  · exact ⟨le_rfl, hone⟩
  · next sequenceEnd hfind =>
      split
      · exact ⟨le_rfl, hone⟩
      · next value hvalue =>
          have hend := length_findOneOf hfind
          have hlength := length_reference hvalue
          have hpos := List.length_pos_iff.mpr (findOneOf_ne_nil hfind)
          rw [List.length_take] at hlength
          simp only [List.length_tail]
          omega

/-- The loop of `unescapeString` -/
def unescapeLoop (b : Buffer) : List UInt8 → Option Buffer
  | [] => some b
  | c :: s =>
    if c ≠ ch '&' then (b.write [c]).bind fun b => unescapeLoop b s
    else (b.write (translate s).1).bind fun b => unescapeLoop b (translate s).2
  termination_by s => s.length
  decreasing_by
    · exact Nat.lt_succ_self _
    · exact Nat.lt_succ_of_le (length_translate s).1

/-- `unescapeString` -/
def unescapeInto (str : List UInt8) : Option (List UInt8) :=
  match findOneOf id [ch '&'] str with
  | none => some str
  | some src =>
    (((Buffer.empty str.length).write (str.take (str.length - src.length))).bind
      fun b => unescapeLoop b src).map Buffer.text

lemma unescapeString_ampersand (s : List UInt8) :
    unescapeString (ch '&' :: s) = (translate s).1 ++ unescapeString (translate s).2 := by
  rw [unescapeString, if_neg (not_not.mpr rfl), translate]
  split
  · next hfind =>
      simp only [hfind]
      rfl
  · next sequenceEnd hfind =>
      simp only [hfind]
      cases reference (s.take (s.length - sequenceEnd.length)) with
      | none => rfl
      | some value => rfl

/-- **No byte is written** behind the end, as no more is written than is read. -/
lemma unescapeLoop_eq (s : List UInt8) : ∀ b : Buffer, b.text.length + s.length ≤ b.capacity →
    ∃ b', unescapeLoop b s = some b' ∧ b'.text = b.text ++ unescapeString s := by
  induction hn : s.length using Nat.strong_induction_on generalizing s with
  | _ n ih =>
    subst hn
    intro b hroom
    rcases s with - | ⟨c, s⟩
    · refine ⟨b, by rw [unescapeLoop], ?_⟩
      rw [unescapeString, List.append_nil]
    rw [List.length_cons] at hroom
    have hstep : ∀ bytes s', s'.length ≤ s.length → bytes.length + s'.length ≤ s.length + 1 →
        ∃ b', ((b.write bytes).bind fun b => unescapeLoop b s') = some b' ∧
          b'.text = b.text ++ (bytes ++ unescapeString s') := by
      intro bytes s' hlt hle
      obtain ⟨b₁, h₁, htext₁, hcapacity₁⟩ := @Buffer.write_eq b bytes (by omega)
      obtain ⟨b₂, h₂, htext₂⟩ := ih s'.length (Nat.lt_succ_of_le hlt) s' rfl b₁ (by
        rw [htext₁, hcapacity₁, List.length_append]
        omega)
      exact ⟨b₂, by rw [h₁]; exact h₂, by rw [htext₂, htext₁, List.append_assoc]⟩
    rw [unescapeLoop]
    split_ifs with hc
    · rw [unescapeString_plain hc]
      exact hstep [c] s le_rfl (by rw [List.length_singleton, Nat.add_comm])
    · rw [not_not.mp hc, unescapeString_ampersand]
      obtain ⟨hlt, hle⟩ := length_translate s
      exact hstep _ _ hlt hle

/-- In front of the first ampersand nothing changes. -/
lemma unescapeString_append {p : List UInt8} (hp : ch '&' ∉ p) (s : List UInt8) :
    unescapeString (p ++ s) = p ++ unescapeString s := by
  induction p with
  | nil => rfl
  | cons c p ih =>
    rw [List.mem_cons, not_or] at hp
    rw [List.cons_append, unescapeString_plain (fun h => hp.1 h.symm), ih hp.2]
    rfl

theorem unescapeInto_eq (s : List UInt8) : unescapeInto s = some (unescapeString s) := by
  rw [unescapeInto]
  rcases findOneOf_cases [ch '&'] s with ⟨p, e, c, rfl, hp, hc, hfind⟩ | ⟨hnone, hplain⟩
  · have htake : (p ++ c :: e).take ((p ++ c :: e).length - (c :: e).length) = p := by
      rw [List.length_append, Nat.add_sub_cancel, List.take_left]
    rw [hfind]
    simp only [htake]
    have hroom : 0 + p.length ≤ (p ++ c :: e).length := by
      rw [List.length_append]
      omega
    obtain ⟨b₁, h₁, htext₁, hcapacity₁⟩ :=
      @Buffer.write_eq (Buffer.empty (p ++ c :: e).length) p hroom
    obtain ⟨b₂, h₂, htext₂⟩ := unescapeLoop_eq (c :: e) b₁ (by
      rw [htext₁, hcapacity₁, Buffer.empty, List.nil_append, List.length_append])
    rw [h₁, Option.bind_some, h₂, Option.map_some, htext₂, htext₁, Buffer.empty, List.nil_append,
      unescapeString_append fun hmem => hp _ hmem List.mem_cons_self]
  · rw [hnone]
    have h := unescapeString_append (fun hmem => hplain _ hmem List.mem_cons_self) []
    rw [List.append_nil, unescapeString, List.append_nil] at h
    rw [h]

/-- **Unescaping undoes escaping**; what has been escaped has no quotes and angle brackets, and each
    ampersand in it starts one of the five references. -/
theorem unescape_escaped (s : CString) : ∃ t, escapeInto s.bytes = some t ∧
    unescapeInto t = some s.bytes ∧
    (∀ c ∈ [ch '\x27', ch '"', ch '<', ch '>'], c ∉ t) ∧
    ∀ u v, t = u ++ ch '&' :: v →
      ∃ name ∈ [bytes "apos", bytes "quot", bytes "amp", bytes "lt", bytes "gt"],
        name ++ [ch ';'] <+: v := by
  refine ⟨escapeString s.bytes, escapeInto_eq s.bytes, ?_, fun c hc => ?_, fun u v h => ?_⟩
  · rw [unescapeInto_eq, unescape_escape]
  · have hmem : c ∈ [ch '<', ch '>', ch '"', ch '\x27'] := by
      simp only [List.mem_cons, List.not_mem_nil, or_false] at hc ⊢
      tauto
    exact notMem_escapeString s.bytes c hmem
  · obtain ⟨e, he, w, rfl⟩ := ampersand_escapeString s.bytes u v h
    exact ⟨e.2, List.mem_map_of_mem he, w, by rw [List.append_assoc]; rfl⟩

end Nstd.Xml
