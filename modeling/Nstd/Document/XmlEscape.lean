import Mathlib.Algebra.Ring.Nat
import Nstd.Core.Bytes
import Nstd.Core.Unicode

/-!
# Escaping in XML

* `escapeString`, `unescapeString` — the functions of `Xml::Private`, on strings without a NUL.
* `unescape_escape` — unescaping undoes escaping.
* `mem_escapeString` — what the bytes of an escaped string are; `notMem_escapeString`,
  `ampersand_escapeString` — special ones are in references only.
-/

namespace Nstd.Xml

/-- `escapeChars` and `escapeStrings` -/
def escapes : List (UInt8 × List UInt8) :=
  [(ch '\x27', bytes "apos"), (ch '"', bytes "quot"), (ch '&', bytes "amp"), (ch '<', bytes "lt"),
    (ch '>', bytes "gt")]

/-- What `escapeString` writes for one byte -/
def escapeByte (c : UInt8) : List UInt8 :=
  if c &&& 0xc0 ≠ 0 ∨ c &&& 0xe0 = 0 then [c]
  else
    match escapes.find? (fun e => e.1 = c) with
    | some e => ch '&' :: (e.2 ++ [ch ';'])
    | none => [c]

/-- `escapeString` -/
def escapeString (str : List UInt8) : List UInt8 := str.flatMap escapeByte

/-- The decimal number of `scanf("%u")`: white space, a sign, digits; too large a number becomes the
    largest one of 64 bits, and of this 32 bits remain. -/
def scanUInt (s : List UInt8) : Option ℕ :=
  let s := s.dropWhile isSpace
  let negative := s.head? = some (ch '-')
  let s := if negative ∨ s.head? = some (ch '+') then s.tail else s
  let digits := s.takeWhile isDigit
  if digits = [] then none
  else
    let n := digits.foldl (fun n c => 10 * n + (c.toNat - (ch '0').toNat)) 0
    if 2 ^ 64 ≤ n then some (2 ^ 32 - 1)
    else some ((if negative then 2 ^ 64 - n else n) % 2 ^ 32)

/-- What stands between an ampersand and a semicolon, if it is a reference -/
def reference (str : List UInt8) : Option (List UInt8) :=
  match str with
  | [] => none
  | c :: s =>
    if c = ch '#' then (scanUInt s).map Unicode.append
    else (escapes.find? fun e => e.2 = str).map fun e => [e.1]

/-- `unescapeString` -/
def unescapeString : List UInt8 → List UInt8
  | [] => []
  | c :: s =>
    if c ≠ ch '&' then c :: unescapeString s
    else
      match _h : findOneOf id [ch ';'] s with
      | none => ch '&' :: unescapeString s
      | some sequenceEnd =>
        match reference (s.take (s.length - sequenceEnd.length)) with
        | none => ch '&' :: unescapeString s
        | some value => value ++ unescapeString sequenceEnd.tail
  termination_by str => str.length
  decreasing_by
    all_goals simp only [List.length_cons, List.length_tail]
    · omega
    · omega
    · omega
    · have := length_findOneOf _h
      omega

/-! ## Escaping and unescaping -/

lemma unescapeString_plain {c : UInt8} (hc : c ≠ ch '&') (s : List UInt8) :
    unescapeString (c :: s) = c :: unescapeString s := by
  rw [unescapeString, if_pos hc]

/-- An ampersand, a reference and a semicolon -/
lemma unescapeString_reference {name value : List UInt8} (hname : ch ';' ∉ name)
    (hvalue : reference name = some value) (s : List UInt8) :
    unescapeString (ch '&' :: (name ++ ch ';' :: s)) = value ++ unescapeString s := by
  have hfind : findOneOf id [ch ';'] (name ++ ch ';' :: s) = some (ch ';' :: s) :=
    findOneOf_append (fun d hd h => hname (List.mem_singleton.mp h ▸ hd)) List.mem_cons_self
  have htake : (name ++ ch ';' :: s).take
      ((name ++ ch ';' :: s).length - (ch ';' :: s).length) = name := by
    rw [List.length_append, Nat.add_sub_cancel, List.take_left]
  rw [unescapeString, if_neg (not_not.mpr rfl)]
  split
  · rename_i h
    rw [hfind] at h
    exact absurd h (by simp)
  · rename_i sequenceEnd h
    rw [hfind] at h
    obtain rfl := Option.some_inj.mp h
    rw [htake, hvalue]
    rfl

/-- What is written for a special character can be read back. -/
lemma escapeByte_special : ∀ e ∈ escapes, escapeByte e.1 = ch '&' :: (e.2 ++ [ch ';']) ∧
    ch ';' ∉ e.2 ∧ reference e.2 = some [e.1] :=
  forall_mem_of_all (by decide +kernel)

lemma escapeByte_plain {c : UInt8} (hc : ∀ e ∈ escapes, e.1 ≠ c) : escapeByte c = [c] := by
  have hfind : escapes.find? (fun e => e.1 = c) = none :=
    List.find?_eq_none.mpr fun e he => by simpa using hc e he
  rw [escapeByte, hfind]
  exact ite_self _

lemma unescapeString_escapeByte (c : UInt8) (s : List UInt8) :
    unescapeString (escapeByte c ++ s) = c :: unescapeString s := by
  by_cases hspecial : ∃ e ∈ escapes, e.1 = c
  · obtain ⟨e, he, rfl⟩ := hspecial
    obtain ⟨hbyte, hname, hvalue⟩ := escapeByte_special e he
    rw [hbyte, List.cons_append, List.append_assoc]
    exact unescapeString_reference hname hvalue s
  · have hplain : ∀ e ∈ escapes, e.1 ≠ c := fun e he h => hspecial ⟨e, he, h⟩
    have hamp : c ≠ ch '&' := fun h => hplain (ch '&', bytes "amp") (by simp [escapes]) h.symm
    rw [escapeByte_plain hplain]
    exact unescapeString_plain hamp s

/-- **Unescaping** undoes escaping. -/
theorem unescape_escape (s : List UInt8) : unescapeString (escapeString s) = s := by
  induction s with
  | nil => rw [escapeString, List.flatMap_nil, unescapeString]
  | cons c s ih =>
    rw [escapeString, List.flatMap_cons, unescapeString_escapeByte]
    exact congrArg (c :: ·) ih

/-- The bytes of references -/
def referenceBytes : List UInt8 := bytes "&;aposqutmlg"

/-- The bytes of an escaped string: those of the string that are not special, and those of
    references -/
lemma mem_escapeString {d : UInt8} {s : List UInt8} (hd : d ∈ escapeString s) :
    (d ∈ s ∧ ∀ e ∈ escapes, e.1 ≠ d) ∨ d ∈ referenceBytes := by
  have hreference : ∀ e ∈ escapes, ∀ b ∈ ch '&' :: (e.2 ++ [ch ';']), b ∈ referenceBytes :=
    forall_mem_of_all (by decide +kernel)
  obtain ⟨c, hc, hd⟩ := List.mem_flatMap.mp hd
  by_cases hspecial : ∃ e ∈ escapes, e.1 = c
  · obtain ⟨e, he, rfl⟩ := hspecial
    rw [(escapeByte_special e he).1] at hd
    exact Or.inr (hreference e he d hd)
  · have hplain : ∀ e ∈ escapes, e.1 ≠ c := fun e he h => hspecial ⟨e, he, h⟩
    rw [escapeByte_plain hplain] at hd
    obtain rfl := List.mem_singleton.mp hd
    exact Or.inl ⟨hc, hplain⟩

/-- Special bytes are not written, except for the ampersand of a reference. -/
lemma notMem_escapeString (s : List UInt8) :
    ∀ d ∈ [ch '<', ch '>', ch '"', ch '\x27'], d ∉ escapeString s := by
  have hspecial : ∀ d ∈ [ch '<', ch '>', ch '"', ch '\x27'],
      (∃ e ∈ escapes, e.1 = d) ∧ d ∉ referenceBytes :=
    forall_mem_of_all (by decide +kernel)
  intro d hd hmem
  obtain ⟨⟨e, he, rfl⟩, hreference⟩ := hspecial d hd
  rcases mem_escapeString hmem with h | h
  · exact h.2 e he rfl
  · exact hreference h

lemma escapeString_append (s t : List UInt8) :
    escapeString (s ++ t) = escapeString s ++ escapeString t := List.flatMap_append

lemma escapeString_cons (c : UInt8) (s : List UInt8) :
    escapeString (c :: s) = escapeByte c ++ escapeString s := List.flatMap_cons

/-- An ampersand is in front of the rest of a reference. -/
lemma ampersand_escapeString (s : List UInt8) : ∀ u v, escapeString s = u ++ ch '&' :: v →
    ∃ e ∈ escapes, ∃ w, v = e.2 ++ ch ';' :: w := by
  have hnames : ∀ e ∈ escapes, ch '&' ∉ e.2 ++ [ch ';'] := forall_mem_of_all (by decide +kernel)
  induction s with
  | nil => exact fun u v h => absurd h (by simp [escapeString])
  | cons c s ih =>
    intro u v h
    rw [escapeString_cons] at h
    by_cases hspecial : ∃ e ∈ escapes, e.1 = c
    · obtain ⟨e, he, rfl⟩ := hspecial
      rw [(escapeByte_special e he).1, List.cons_append] at h
      rcases u with - | ⟨d, u⟩
      · refine ⟨e, he, escapeString s, ?_⟩
        rw [← (List.cons.inj h).2, List.append_assoc]
        rfl
      · rcases List.append_eq_append_iff.mp (List.cons.inj h).2 with ⟨t, -, hs⟩ | ⟨t, ht, hv⟩
        · exact ih t v hs
        · rcases t with - | ⟨d, t⟩
          · exact ih [] v hv.symm
          · rw [(List.cons.inj hv).1] at hnames
            exact absurd (by rw [ht]; simp) (hnames e he)
    · have hplain : ∀ e ∈ escapes, e.1 ≠ c := fun e he h => hspecial ⟨e, he, h⟩
      rw [escapeByte_plain hplain] at h
      rcases u with - | ⟨d, u⟩
      · have hamp : (ch '&', bytes "amp") ∈ escapes := by simp [escapes]
        exact absurd (List.cons.inj h).1.symm (hplain _ hamp)
      · exact ih u v (List.cons.inj h).2

end Nstd.Xml
